import GrammarCode.Atom.Text
import GrammarCode.Atom.Walk
import GrammarCode.Compile.Emitter
import GrammarCode.Log

/-!
# Compilation

A tree is compiled by emitting its code, wrapping it up as a program and checking the program.
The result comes with the events that the compilation reports.
-/

namespace GrammarCode

/-- Why a compilation gives no program: the tree is refused, or a step that must not fail on an
accepted tree does. -/
inductive CompileFailure where
  | refused (e : CompileError)
  | broken
  deriving DecidableEq, Repr

/-- A finished compilation. -/
structure Compilation where
  result : Except CompileFailure Program
  events : List Log.Event

/-- The nesting limit that is used unless another one is given. -/
def defaultMaxDepth : Int := 10000

namespace Compile

/-- The event of a refused tree. -/
def failedEvent (e : CompileError) : Log.Event :=
  { level := .debug
    message := "grammar compilation failed"
    fields := [("error", .text e.message)] }

/-- The event of a compiled tree of `atoms` atoms. -/
def compiledEvent (p : Program) (atoms : Nat) : Log.Event :=
  { level := .debug
    message := "compiled grammar"
    fields :=
      [("program", .text p.id), ("atoms", .number atoms), ("instructions", .number p.size),
       ("addresses", .number p.addresses.size)] }

end Compile

/-- Compiles a tree whose atoms may nest `maxDepth` deep; a limit of zero or less is none. The
program takes the fresh identifier. -/
def compile (maxDepth : Int) (fresh : Bytes) (a : Atom) : Compilation :=
  match Emitter.atom maxDepth [] {} a with
  | .error (.refused e) => { result := .error (.refused e), events := [Compile.failedEvent e] }
  | .error (.misresolved _) => { result := .error .broken, events := [] }
  | .ok out =>
    match a.text? with
    | none => { result := .error .broken, events := [] }
    | some source =>
      let p := Program.make fresh [] source out.instructions out.addresses
      if p.isConsistent then
        match a.count? with
        | none => { result := .error .broken, events := [] }
        | some n => { result := .ok p, events := [Compile.compiledEvent p n] }
      else
        let cause := Defect.report (p.defects.map Defect.message)
        { result := .error (.refused (.invalidProgram cause)), events := [] }

end GrammarCode
