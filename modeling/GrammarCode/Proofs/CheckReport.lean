import GrammarCode.Cli.Check
import GrammarCode.Files.Tree
import GrammarCode.Proofs.Compilation
import Mathlib.Data.List.Sort
import Mathlib.Logic.Relation

/-!
# The report of a check

A check compiles the files of several paths at once, and they may finish in any order. A pool of
workers is a system of steps: the next waiting task is taken up while a worker is free, and any task
that is worked on may be finished. Whatever the order, every verdict lands in the place of its own
path, so the report depends only on which paths the patterns stand for and on what their files hold.
-/

namespace GrammarCode

theorem Bytes.before_iff_lt (a b : Bytes) : before a b = true ↔ a < b := by
  fun_induction before a b with
  | case1 b => cases b <;> simp
  | case2 => simp
  | case3 x xs ys ih => simpa [List.cons_lt_cons_iff] using ih
  | case4 x xs y ys hne => simp [List.cons_lt_cons_iff, hne]

namespace Cli.Check

open Settings (Layers)

/-! ### Paths in order -/

private theorem nodup_eraseDups (l : List Bytes) : l.eraseDups.Nodup := by
  induction hn : l.length using Nat.strongRecOn generalizing l with
  | ind n ih =>
    cases l with
    | nil => simp
    | cons a l =>
      subst hn
      rw [List.eraseDups_cons, List.nodup_cons]
      refine ⟨fun ha ↦ ?_, ih _ (Nat.lt_succ_of_le (List.length_filter_le _ _)) _ rfl⟩
      simpa using List.of_mem_filter (List.mem_eraseDups.mp ha)

theorem mem_paths {expansions : List (List Bytes)} {path : Bytes} :
    path ∈ paths expansions ↔ ∃ e ∈ expansions, path ∈ e := by
  rw [paths, List.mem_mergeSort, List.mem_eraseDups, List.mem_flatten]

/-- Paths are in strictly increasing order, so none is repeated. -/
theorem pairwise_paths (expansions : List (List Bytes)) :
    (paths expansions).Pairwise (· < ·) := by
  have hle (a b : Bytes) : (!Bytes.before b a) = true ↔ a ≤ b := by
    rw [Bool.not_eq_true', ← Bool.not_eq_true, Bytes.before_iff_lt, List.not_lt]
  have hsorted : (paths expansions).Pairwise (· ≤ ·) := by
    have h := @List.pairwise_mergeSort Bytes (fun a b ↦ !Bytes.before b a)
      (fun a b c hab hbc ↦ (hle a c).mpr (List.le_trans ((hle a b).mp hab) ((hle b c).mp hbc)))
      (fun a b ↦ by rw [Bool.or_eq_true, hle, hle]; exact List.le_total a b)
      expansions.flatten.eraseDups
    exact h.imp fun hab ↦ (hle _ _).mp hab
  have hnodup : (paths expansions).Nodup :=
    (List.mergeSort_perm _ _).nodup_iff.mpr (nodup_eraseDups _)
  exact (hsorted.and hnodup).imp fun h ↦ Std.lt_of_le_of_ne h.1 h.2

/-- A pattern stands for at least one path. -/
theorem expansion_ne_nil (pattern : Bytes) (found : List Bytes) : expansion pattern found ≠ [] := by
  unfold expansion
  split
  · exact List.cons_ne_nil _ _
  · next h => simpa using h

/-- A pattern stands for the files that it matches, or for itself if it matches none. -/
theorem mem_expansion {pattern path : Bytes} {found : List Bytes} :
    path ∈ expansion pattern found ↔ path ∈ found ∨ found = [] ∧ path = pattern := by
  cases found with
  | nil => simp [expansion]
  | cons => simp [expansion]

/-! ### Verdicts in their places -/

/-- The numbers of paths with their verdicts. -/
def tagged (verdict : Bytes → Verdict) (ps : List (Bytes × Nat)) : List (Nat × Verdict) :=
  ps.map fun p ↦ (p.2, verdict p.1)

private theorem getElem?_writes_of_notMem (fs : List (Nat × Verdict)) (vs : Array Verdict) {i : Nat}
    (h : i ∉ fs.map Prod.fst) :
    (fs.foldl (fun vs f ↦ vs.setIfInBounds f.1 f.2) vs)[i]? = vs[i]? := by
  induction fs generalizing vs with
  | nil => rfl
  | cons f fs ih =>
    rw [List.map_cons, List.mem_cons, not_or] at h
    rw [List.foldl_cons, ih _ h.2, Array.getElem?_setIfInBounds_ne (Ne.symm h.1)]

/-- Of writes to distinct places each stays, whatever is written before and after it. -/
private theorem getElem?_writes_of_mem (fs : List (Nat × Verdict)) (vs : Array Verdict) {i : Nat}
    {v : Verdict} (hnodup : (fs.map Prod.fst).Nodup) (h : (i, v) ∈ fs) (hi : i < vs.size) :
    (fs.foldl (fun vs f ↦ vs.setIfInBounds f.1 f.2) vs)[i]? = some v := by
  induction fs generalizing vs with
  | nil => cases h
  | cons f fs ih =>
    rw [List.map_cons, List.nodup_cons] at hnodup
    rw [List.foldl_cons]
    rcases List.mem_cons.mp h with rfl | h
    · rw [getElem?_writes_of_notMem _ _ hnodup.1, Array.getElem?_setIfInBounds_self_of_lt hi]
    · exact ih _ hnodup.2 h (by rwa [Array.size_setIfInBounds])

@[simp] theorem size_slots (n : Nat) (finished : List (Nat × Verdict)) :
    (slots n finished).size = n := by
  have hwrites (fs : List (Nat × Verdict)) (vs : Array Verdict) :
      (fs.foldl (fun vs f ↦ vs.setIfInBounds f.1 f.2) vs).size = vs.size := by
    induction fs generalizing vs with
    | nil => rfl
    | cons f fs ih => rw [List.foldl_cons, ih, Array.size_setIfInBounds]
  rw [slots, hwrites, Array.size_replicate]

/-- In whatever order the verdicts of all paths come in, each stands in the place of its path. -/
theorem slots_eq_of_perm {verdict : Bytes → Verdict} {ps : List Bytes}
    {finished : List (Nat × Verdict)} (h : finished.Perm (tagged verdict ps.zipIdx)) :
    slots ps.length finished = (ps.map verdict).toArray := by
  have hkeys : (tagged verdict ps.zipIdx).map Prod.fst = List.range ps.length := by
    rw [tagged, List.map_map, List.range_eq_range', ← List.zipIdx_map_snd 0 ps]
    rfl
  have hnodup : (finished.map Prod.fst).Nodup := by
    rw [(h.map Prod.fst).nodup_iff, hkeys]
    exact List.nodup_range
  apply Array.ext_getElem?
  intro i
  by_cases hi : i < ps.length
  · have hmem : (i, verdict ps[i]) ∈ finished := by
      rw [h.mem_iff]
      exact List.mem_map.mpr ⟨(ps[i], i), List.mk_mem_zipIdx_iff_getElem?.mpr (by simp [hi]), rfl⟩
    rw [slots, getElem?_writes_of_mem _ _ hnodup hmem (by simpa using hi)]
    simp [hi]
  · rw [Array.getElem?_eq_none (by simpa using hi), Array.getElem?_eq_none (by simpa using hi)]

/-! ### A pool of workers -/

/-- Tasks that wait, those that are worked on, and those that are finished, in the order in which
they were. -/
structure Pool (α : Type) where
  waiting : List α
  running : List α := []
  finished : List α := []

namespace Pool

variable {α : Type} {jobs : Nat}

/-- One step of a pool of so many workers. -/
inductive Step (jobs : Nat) : Pool α → Pool α → Prop
  | take {task waiting running finished} : running.length < jobs →
      Step jobs ⟨task :: waiting, running, finished⟩ ⟨waiting, task :: running, finished⟩
  | finish {task waiting before after finished} :
      Step jobs ⟨waiting, before ++ task :: after, finished⟩
        ⟨waiting, before ++ after, finished ++ [task]⟩

/-- Any number of steps. -/
abbrev Reaches (jobs : Nat) : Pool α → Pool α → Prop := Relation.ReflTransGen (Step jobs)

/-- So many workers may finish tasks in this order. -/
def Finishes (jobs : Nat) (tasks order : List α) : Prop :=
  Reaches jobs ⟨tasks, [], []⟩ ⟨[], [], order⟩

/-- All tasks of a pool. -/
def tasks (s : Pool α) : List α := s.waiting ++ s.running ++ s.finished

/-- A step loses no task and repeats none. -/
theorem Step.perm_tasks {s t : Pool α} (h : Step jobs s t) : t.tasks.Perm s.tasks := by
  cases h with
  | take _ =>
    simp only [tasks, List.cons_append]
    exact List.Perm.append_right _ List.perm_middle
  | finish =>
    -- The task goes from among the running ones to the end of the finished ones.
    simp only [tasks, List.append_assoc]
    refine List.Perm.append_left _ (List.Perm.append_left _ ?_)
    rw [← List.append_assoc]
    exact List.perm_append_singleton _ _

theorem Reaches.perm_tasks {s t : Pool α} (h : Reaches jobs s t) : t.tasks.Perm s.tasks := by
  induction h with
  | refl => exact .refl _
  | tail _ hstep ih => exact hstep.perm_tasks.trans ih

theorem Finishes.perm {tasks order : List α} (h : Finishes jobs tasks order) :
    order.Perm tasks := by
  simpa [Pool.tasks] using Reaches.perm_tasks h

/-- A pool with a worker never gets stuck: from every state all can be finished. -/
theorem exists_finished (hjobs : 1 ≤ jobs) (s : Pool α) :
    ∃ order, s.Reaches jobs ⟨[], [], order⟩ := by
  induction hn : 2 * s.waiting.length + s.running.length using Nat.strongRecOn generalizing s with
  | ind n ih =>
    obtain ⟨waiting, running, finished⟩ := s
    subst hn
    cases running with
    | cons task running =>
      have hstep : Step jobs ⟨waiting, [] ++ task :: running, finished⟩
          ⟨waiting, running, finished ++ [task]⟩ := .finish
      obtain ⟨order, horder⟩ := ih _ (by simp) ⟨waiting, running, finished ++ [task]⟩ rfl
      exact ⟨order, .head hstep horder⟩
    | nil =>
      cases waiting with
      | nil => exact ⟨finished, .refl⟩
      | cons task waiting =>
        have hstep : Step jobs ⟨task :: waiting, [], finished⟩ ⟨waiting, [task], finished⟩ :=
          .take hjobs
        obtain ⟨order, horder⟩ := ih _ (by simp; omega) ⟨waiting, [task], finished⟩ rfl
        exact ⟨order, .head hstep horder⟩

/-- A free worker finishes the waiting tasks as they come, whatever the others are doing. -/
theorem reaches_in_turn {running : List α} (h : running.length < jobs) (tasks finished : List α) :
    Reaches jobs ⟨tasks, running, finished⟩ ⟨[], running, finished ++ tasks⟩ := by
  induction tasks generalizing finished with
  | nil => rw [List.append_nil]
  | cons task rest ih =>
    have hfinish : Step jobs ⟨rest, [] ++ task :: running, finished⟩
        ⟨rest, running, finished ++ [task]⟩ := .finish
    have hrest := ih (finished ++ [task])
    rw [List.append_assoc, List.singleton_append] at hrest
    exact .head (.take h) (.head hfinish hrest)

end Pool

/-! ### One file -/

/-- What compiling a file with some content comes to: how many instructions the program has, or the
error. -/
def outcome (reader : Yaml.Reader) (maxDepth : Int) (path : Bytes) :
    Except FileError Bytes → Except CommandError Nat
  | .error e => .error (.file e)
  | .ok text => (compileText reader maxDepth [] path text).result.map Program.size

/-- The identifier of a program makes no difference to what compiling a text comes to. -/
theorem size_compileText (reader : Yaml.Reader) (maxDepth : Int) (fresh path text : Bytes) :
    (compileText reader maxDepth fresh path text).result.map Program.size =
      outcome reader maxDepth path (.ok text) := by
  rw [outcome]
  unfold compileText
  cases Grammar.decode path text reader with
  | error e => rfl
  | ok a =>
    dsimp only
    rw [Compile.result_compile, Compile.result_compile]
    cases Emitter.refusal? maxDepth (a.places []) with
    | some e => rfl
    | none => rfl

/-- The verdict on what a compilation came to. -/
def Verdict.ofOutcome : Except CommandError Nat → Verdict
  | .ok n => .accepted n
  | .error e => .refused e.message

theorem Verdict.ofCompiled_eq (c : Compiled) :
    ofCompiled c = ofOutcome (c.result.map Program.size) := by
  unfold ofCompiled
  cases c.result <;> rfl

/-! ### What is reported -/

/-- The entry of a path in the report. -/
def entry (screen : Text.Screen) (colour : Bool) (path : Bytes) : Except CommandError Nat → Bytes
  | .ok n =>
    Bytes.cat [screen.paint colour [.green] "ok", " ", path, " (", Bytes.decimalNat n,
      " instructions)\n"]
  | .error e =>
    Bytes.cat [screen.paint colour [.red] "FAIL", " ", path, ": ", e.message, "\n"]

/-- How many paths have an error. -/
def failures (result : Bytes → Except CommandError Nat) (ps : List Bytes) : Nat :=
  ps.countP fun path ↦ !(result path).isOk

theorem failures_eq_zero_iff {result : Bytes → Except CommandError Nat} {ps : List Bytes} :
    failures result ps = 0 ↔ ∀ path ∈ ps, ∃ n, result path = .ok n := by
  have hok (r : Except CommandError Nat) : r.isOk = true ↔ ∃ n, r = .ok n := by
    cases r <;> simp [Except.isOk, Except.toBool]
  simp [failures, List.countP_eq_zero, hok]

/-- The error of a report: how many of the paths failed, if any did. -/
def failure? (result : Bytes → Except CommandError Nat) (ps : List Bytes) : Option CommandError :=
  if failures result ps = 0 then none else some (.failedGrammars (failures result ps) ps.length)

theorem failure?_eq_none_iff {result : Bytes → Except CommandError Nat} {ps : List Bytes} :
    failure? result ps = none ↔ ∀ path ∈ ps, ∃ n, result path = .ok n := by
  rw [← failures_eq_zero_iff]
  simp [failure?]

theorem message_of_mem_failure? {result : Bytes → Except CommandError Nat} {ps : List Bytes}
    {e : CommandError} (h : e ∈ failure? result ps) :
    e.message = Bytes.cat [Bytes.decimalNat (failures result ps), " of ",
      Bytes.decimalNat ps.length, " grammars failed"] := by
  unfold failure? at h
  split at h
  · cases h
  · cases h
    rfl

theorem line_ofOutcome (screen : Text.Screen) (colour : Bool) (path : Bytes)
    (r : Except CommandError Nat) :
    (Verdict.ofOutcome r).line screen colour path = entry screen colour path r := by
  cases r <;> rfl

theorem isRefused_ofOutcome (r : Except CommandError Nat) :
    (Verdict.ofOutcome r).isRefused = !r.isOk := by
  cases r <;> rfl

/-- In whatever order the verdicts come in, they are reported in the order of the paths. -/
theorem summary_slots (screen : Text.Screen) (colour : Bool)
    {result : Bytes → Except CommandError Nat} {ps : List Bytes} {finished : List (Nat × Verdict)}
    (h : finished.Perm (tagged (fun path ↦ .ofOutcome (result path)) ps.zipIdx)) :
    summary screen colour ps (slots ps.length finished) =
      (ps.flatMap fun path ↦ entry screen colour path (result path), failure? result ps) := by
  have hentries : ps.zip (ps.map fun path ↦ Verdict.ofOutcome (result path)) =
      ps.map fun path ↦ (path, Verdict.ofOutcome (result path)) := by
    simpa using List.zip_map' (f := id) (g := fun path ↦ Verdict.ofOutcome (result path)) (l := ps)
  rw [slots_eq_of_perm h]
  simp only [summary, failure?, failures, hentries, List.flatMap_map, List.filter_map,
    List.length_map, List.countP_eq_length_filter, Function.comp_def, line_ofOutcome,
    isRefused_ofOutcome]

section Host

variable {m : Type → Type} [Monad m] [LawfulMonad m] {host : Host m}

/-- Compiling the file of a path comes to what its content says, whatever identifier comes. -/
theorem compileFile_outcome (reader : Yaml.Reader) (maxDepth : Int) {path : Bytes}
    {content : Except FileError Bytes} (h : host.read path = pure content) :
    ∃ compiled : m { c : Compiled //
        c.result.map Program.size = outcome reader maxDepth path content },
      compileFile host reader maxDepth path = Subtype.val <$> compiled := by
  cases content with
  | error e =>
    exact ⟨pure ⟨{ result := .error (.file e) }, rfl⟩, by simp [compileFile, h]⟩
  | ok text =>
    refine
      ⟨(fun fresh ↦ ⟨_, size_compileText reader maxDepth fresh path text⟩) <$> host.freshId, ?_⟩
    simp [compileFile, h]

/-! ### The whole check -/

theorem expand_eq {finder : Glob.Finder m} {patterns : List Bytes} {found : Bytes → List Bytes}
    (hvalid : ∀ p ∈ patterns, finder.isValid p = true)
    (hfound : ∀ p ∈ patterns, finder.files p = pure (some (found p))) :
    expand finder patterns = pure (.ok (patterns.map fun p ↦ expansion p (found p))) := by
  induction patterns with
  | nil => rfl
  | cons p rest ih =>
    rw [List.forall_mem_cons] at hvalid hfound
    simp [expand, hvalid.1, hfound.1, ih hvalid.2 hfound.2]

-- What holds of the result of every action of a list holds of the results together.
private theorem mapM_outcome {α β γ : Type} {f : α → m β} {g : β → γ} {k : α → γ}
    (h : ∀ a, ∃ outcome : m { b // g b = k a }, f a = Subtype.val <$> outcome) (l : List α) :
    ∃ outcome : m { bs : List β // bs.map g = l.map k }, l.mapM f = Subtype.val <$> outcome := by
  induction l with
  | nil => exact ⟨pure ⟨[], rfl⟩, by simp⟩
  | cons a l ih =>
    obtain ⟨first, hfirst⟩ := h a
    obtain ⟨more, hmore⟩ := ih
    let both (b : { b // g b = k a }) (bs : { bs : List β // bs.map g = l.map k }) :
        { bs : List β // bs.map g = (a :: l).map k } :=
      ⟨b.val :: bs.val, by rw [List.map_cons, List.map_cons, b.property, bs.property]⟩
    refine ⟨do return both (← first) (← more), ?_⟩
    rw [List.mapM_cons, hfirst, hmore]
    simp [both]

/-- All files are compiled and come in with the numbers of their paths. -/
theorem compileAll_outcomes (reader : Yaml.Reader) (maxDepth : Int)
    {content : Bytes → Except FileError Bytes}
    (hread : ∀ path, host.read path = pure (content path)) (ps : List (Bytes × Nat)) :
    ∃ compiled : m { fs : List (Nat × Compiled) //
        fs.map (fun f ↦ (f.1, Verdict.ofCompiled f.2)) =
          tagged (fun path ↦ .ofOutcome (outcome reader maxDepth path (content path))) ps },
      compileAll host reader maxDepth ps = Subtype.val <$> compiled := by
  refine mapM_outcome (fun p ↦ ?_) ps
  obtain ⟨compiled, hcompiled⟩ := compileFile_outcome reader maxDepth (hread p.1)
  refine ⟨(fun c ↦ ⟨(p.2, c.val), by rw [Verdict.ofCompiled_eq, c.property]⟩) <$> compiled, ?_⟩
  rw [hcompiled]
  simp

/-- A check of valid patterns reports what compiling comes to on the paths that they stand for,
together with some events, in whatever order the workers finish. -/
theorem run_eq (libraries : Libraries m) (colour : Bool) (settings : Layers) {patterns : List Bytes}
    {content : Bytes → Except FileError Bytes} {found : Bytes → List Bytes}
    (hread : ∀ path, host.read path = pure (content path))
    (hvalid : ∀ p ∈ patterns, libraries.finder.isValid p = true)
    (hfound : ∀ p ∈ patterns, libraries.finder.files p = pure (some (found p)))
    (hne : patterns ≠ []) (hjobs : 1 ≤ settings.int "jobs")
    (horder : ∀ tasks, (libraries.order (settings.int "jobs").toNat tasks).Perm tasks) :
    let result := fun path ↦
      outcome libraries.reader (settings.int "max-depth") path (content path)
    let ps := paths (patterns.map fun p ↦ expansion p (found p))
    ∃ events : m (List Log.Event), run host libraries colour settings patterns =
      (fun es ↦
        { out := ps.flatMap fun path ↦ entry libraries.screen colour path (result path)
          events := es
          error := failure? result ps }) <$> events := by
  intro result ps
  have hps : ps ≠ [] := by
    obtain ⟨p, hp⟩ := List.exists_mem_of_ne_nil _ hne
    obtain ⟨path, hpath⟩ := List.exists_mem_of_ne_nil _ (expansion_ne_nil p (found p))
    exact List.ne_nil_of_mem (mem_paths.mpr ⟨_, List.mem_map_of_mem hp, hpath⟩)
  let tasks := libraries.order (settings.int "jobs").toNat ps.zipIdx
  obtain ⟨compiled, hcompiled⟩ :=
    compileAll_outcomes libraries.reader (settings.int "max-depth") hread tasks
  refine ⟨(fun fs ↦ fs.val.flatMap fun f ↦ f.2.events) <$> compiled, ?_⟩
  have hrun : run host libraries colour settings patterns = do
      let finished ← compileAll host libraries.reader (settings.int "max-depth") tasks
      let verdicts := slots ps.length (finished.map fun f ↦ (f.1, Verdict.ofCompiled f.2))
      return { out := (summary libraries.screen colour ps verdicts).1
               events := finished.flatMap fun f ↦ f.2.events
               error := (summary libraries.screen colour ps verdicts).2 } := by
    rw [run, if_neg (by omega), expand_eq hvalid hfound, pure_bind]
    exact if_neg (by simpa using hps)
  have htagged : (tagged (fun path ↦ .ofOutcome (result path)) tasks).Perm
      (tagged (fun path ↦ .ofOutcome (result path)) ps.zipIdx) := (horder ps.zipIdx).map _
  rw [hrun, hcompiled, bind_map_left, Functor.map_map, map_eq_pure_bind]
  congr 1
  funext fs
  dsimp only
  rw [fs.property, summary_slots libraries.screen colour htagged]

/-- The report of a check has one entry for each path that the patterns stand for, in strictly
increasing order, and each tells what compiling the file of that very path comes to: that it is fine
and how many instructions the program has, or that it failed and why. There is an error exactly if
some path failed, with the numbers of failed and of all paths. The report is the same for patterns
in another order or repeated, and for every order in which a pool of the given number of workers may
finish the files; such a pool can always finish. -/
theorem run_any_schedule (host : Host m) (libraries : Libraries m)
    (content : Bytes → Except FileError Bytes) (found : Bytes → List Bytes) (colour : Bool)
    (settings : Layers) (patterns : List Bytes)
    (hread : ∀ path, host.read path = pure (content path))
    (hvalid : ∀ p ∈ patterns, libraries.finder.isValid p = true)
    (hfound : ∀ p ∈ patterns, libraries.finder.files p = pure (some (found p)))
    (hne : patterns ≠ []) (hjobs : 1 ≤ settings.int "jobs") :
    let maxDepth := settings.int "max-depth"
    let jobs := (settings.int "jobs").toNat
    let result := fun path ↦ outcome libraries.reader maxDepth path (content path)
    (∀ path, ∃ compiled : m { c : Compiled // c.result.map Program.size = result path },
      compileFile host libraries.reader maxDepth path = Subtype.val <$> compiled) ∧
    (∀ pool : Pool (Bytes × Nat), ∃ order, pool.Reaches jobs ⟨[], [], order⟩) ∧
    ∃ (ps : List Bytes) (error : Option CommandError),
      ps.Pairwise (· < ·) ∧
      (∀ path, path ∈ ps ↔ ∃ p ∈ patterns, path ∈ found p ∨ found p = [] ∧ path = p) ∧
      (error = none ↔ ∀ path ∈ ps, ∃ n, result path = .ok n) ∧
      (∀ e ∈ error, e.message = Bytes.cat [Bytes.decimalNat (failures result ps), " of ",
        Bytes.decimalNat ps.length, " grammars failed"]) ∧
      ∀ patterns' : List Bytes, (∀ p, p ∈ patterns' ↔ p ∈ patterns) →
      ∀ order, (∀ tasks, Pool.Finishes jobs tasks (order jobs tasks)) →
        ∃ events : m (List Log.Event), run host { libraries with order } colour settings patterns' =
          (fun es ↦
            { out := ps.flatMap fun path ↦ entry libraries.screen colour path (result path)
              events := es, error }) <$> events := by
  intro maxDepth jobs result
  let ps := paths (patterns.map fun p ↦ expansion p (found p))
  refine ⟨fun path ↦ compileFile_outcome libraries.reader maxDepth (hread path),
    Pool.exists_finished (by omega), ps, failure? result ps, pairwise_paths _, fun path ↦ ?_,
    failure?_eq_none_iff, fun e ↦ message_of_mem_failure?, ?_⟩
  · simp [ps, mem_paths, mem_expansion]
  · intro patterns' hsame order horder
    -- The paths of both lists are in strict order and have the same members.
    have hpaths : paths (patterns'.map fun p ↦ expansion p (found p)) = ps :=
      (pairwise_paths _).eq_of_mem_iff (pairwise_paths _) fun path ↦ by
        simp [ps, mem_paths, hsame]
    obtain ⟨p, hp⟩ := List.exists_mem_of_ne_nil _ hne
    obtain ⟨events, hevents⟩ := run_eq { libraries with order } colour settings hread
      (fun q hq ↦ hvalid q ((hsame q).mp hq)) (fun q hq ↦ hfound q ((hsame q).mp hq))
      (List.ne_nil_of_mem ((hsame p).mpr hp)) hjobs fun tasks ↦ (horder tasks).perm
    rw [hpaths] at hevents
    exact ⟨events, hevents⟩

end Host

/-- Overlapping patterns, one of them without matches, in two orders and with one repeated, checked
by two workers of whom the second is done first: three paths in order, one of an empty file, one of
a word and one without a file. -/
theorem run_any_schedule_overlapping :
    let tree : FileTree := .directory [([0x62], .file "x"), ([0x61], .file [])]
    let host : Host Id :=
      { read := tree.read
        kind := tree.kind?
        entries := tree.list
        environment := fun _ ↦ none
        input := .ok []
        freshId := ([] : Bytes)
        clock := ([] : Bytes)
        toolchain := []
        platform := [] }
    let words : Yaml.Reader := fun text ↦
      .ok (if text.isEmpty then none else some ⟨.scalar ⟨"!!str", 1, 1⟩ text, #[]⟩)
    let libraries : Libraries Id := { Libraries.standard host with reader := words }
    let swapped (_ : Nat) (tasks : List (Bytes × Nat)) : List (Bytes × Nat) :=
      tasks.drop 1 ++ tasks.take 1
    let settings : Layers := { given := [("jobs", .integer 2)] }
    let r := run host libraries false settings [[0x2A], [0x63], [0x62]]
    let r' := run host { libraries with order := swapped } false settings
      [[0x62], [0x63], [0x62], [0x2A]]
    let report : Bytes := Bytes.cat ["FAIL a: grammar error: empty grammar document\n",
      "ok b (1 instructions)\n", "FAIL c: open c: no such file or directory\n"]
    r.out = report ∧ r'.out = report ∧
      r.error.map CommandError.message = some ("2 of 3 grammars failed" : Bytes) ∧
      r'.error = r.error := by
  intro tree host words libraries swapped settings r r' report
  let found (p : Bytes) : List Bytes :=
    if p = [0x2A] then [[0x62], [0x61]] else if p = [0x62] then [[0x62]] else []
  have hfound : ∀ p ∈ [[0x2A], [0x63], [0x62]],
      libraries.finder.files p = pure (some (found p)) := by
    simp only [List.forall_mem_cons]
    exact ⟨rfl, rfl, rfl, List.forall_mem_nil _⟩
  obtain ⟨-, -, ps, error, hsorted, hmem, hnone, hmessage, hrun⟩ := run_any_schedule host libraries
    tree.read found false settings [[0x2A], [0x63], [0x62]] (fun _ ↦ rfl) (by decide) hfound
    (by decide) (by decide)
  have hps : ps = [[0x61], [0x62], [0x63]] := by
    refine hsorted.eq_of_mem_iff (by decide) fun path ↦ (hmem path).trans ?_
    simp [found]
    tauto
  have hin_turn (tasks : List (Bytes × Nat)) : Pool.Finishes 2 tasks tasks :=
    Pool.reaches_in_turn (by decide) tasks []
  have hswapped (tasks : List (Bytes × Nat)) : Pool.Finishes 2 tasks (swapped 2 tasks) := by
    cases tasks with
    | nil => exact hin_turn []
    | cons task rest =>
      have hlast : Pool.Step 2 ⟨[], [] ++ [task], rest⟩ ⟨[], [], rest ++ [task]⟩ := .finish
      exact .head (.take (by decide)) (.tail (Pool.reaches_in_turn (by simp) rest []) hlast)
  obtain ⟨events, hr⟩ := hrun [[0x2A], [0x63], [0x62]] (fun _ ↦ Iff.rfl) libraries.order hin_turn
  obtain ⟨events', hr'⟩ := hrun [[0x62], [0x63], [0x62], [0x2A]]
    (fun p ↦ by simp only [List.mem_cons, List.not_mem_nil, or_false]; tauto) swapped hswapped
  change r = _ at hr
  change r' = _ at hr'
  subst hps
  let result (path : Bytes) := outcome words (settings.int "max-depth") path (tree.read path)
  have hreport : ([[0x61], [0x62], [0x63]].flatMap fun path ↦
      entry libraries.screen false path (result path)) = report := by decide +kernel
  have hfailures : failures result [[0x61], [0x62], [0x63]] = 2 := by decide +kernel
  have herror : error ≠ none := by
    intro h
    rw [failures_eq_zero_iff.mpr (hnone.mp h)] at hfailures
    cases hfailures
  obtain ⟨e, rfl⟩ := Option.ne_none_iff_exists'.mp herror
  have hmessage := hmessage e rfl
  rw [hfailures] at hmessage
  refine ⟨(congrArg Report.out hr).trans hreport, (congrArg Report.out hr').trans hreport, ?_,
    (congrArg Report.error hr').trans (congrArg Report.error hr).symm⟩
  exact (congrArg (·.error.map CommandError.message) hr).trans (congrArg some hmessage)

end Cli.Check

end GrammarCode
