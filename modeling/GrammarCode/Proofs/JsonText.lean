import GrammarCode.Proofs.Decimal
import GrammarCode.Proofs.JsonString

/-!
# JSON texts read back

Reading undoes writing, whatever the layout: a value that is written on one line or indented is
read back with the stray bytes of its strings replaced. The reader may meet any text after a
value, which is what lets values stand inside others.
-/

namespace GrammarCode

namespace Json

/-! ### Numbers -/

/-- The texts before which a number ends: the end, a blank, a comma or a closing bracket. -/
def Ends (rest : Bytes) : Prop :=
  ∀ b ∈ rest.head?, isBlank b = true ∨ b = 0x2C ∨ b = 0x5D ∨ b = 0x7D

private theorem not_isDigit_of_ends {b : UInt8}
    (h : isBlank b = true ∨ b = 0x2C ∨ b = 0x5D ∨ b = 0x7D) :
    isDigit b = false ∧ b ≠ 0x2E ∧ b ≠ 0x65 ∧ b ≠ 0x45 := by
  have hb : b = 0x20 ∨ b = 0x09 ∨ b = 0x0A ∨ b = 0x0D ∨ b = 0x2C ∨ b = 0x5D ∨ b = 0x7D := by
    simpa [isBlank, or_assoc] using h
  rcases hb with rfl | rfl | rfl | rfl | rfl | rfl | rfl <;> decide

private theorem digits?_append {ds rest : Bytes} (hds : ∀ b ∈ ds, isDigit b = true)
    (hne : ds ≠ []) (h : Ends rest) : digits? (ds ++ rest) = some (ds, rest) := by
  have hstop : rest.takeWhile isDigit = [] ∧ rest.dropWhile isDigit = rest := by
    cases rest with
    | nil => exact ⟨rfl, rfl⟩
    | cons b more =>
      have hb := (not_isDigit_of_ends (h b rfl)).1
      simp [hb]
  rw [digits?, List.takeWhile_append_of_pos hds, List.dropWhile_append_of_pos hds, hstop.1,
    hstop.2, List.append_nil]
  simp [hne]

private theorem whole?_decimalNat (m : Nat) {rest : Bytes} (h : Ends rest) :
    whole? (Bytes.decimalNat m ++ rest) = some (Bytes.decimalNat m, rest) := by
  by_cases hm : m = 0
  · subst hm
    rfl
  · obtain ⟨b, ds, hb, hzero⟩ := Bytes.decimalNat_head m hm
    have hdigits := digits?_append (Bytes.isDigit_of_mem_decimalNat m) (by rw [hb]; simp) h
    rw [hb, List.cons_append] at hdigits ⊢
    unfold whole?
    split
    · next heq => exact absurd (List.cons.inj heq).1 hzero
    · exact hdigits

private theorem fraction?_of_ends {rest : Bytes} (h : Ends rest) :
    fraction? rest = some ([], rest) := by
  unfold fraction?
  split
  · exact absurd rfl (not_isDigit_of_ends (h 0x2E rfl)).2.1
  · rfl

private theorem exponent?_of_ends {rest : Bytes} (h : Ends rest) :
    exponent? rest = some ([], rest) := by
  unfold exponent?
  split
  · next e more =>
    obtain ⟨-, -, h1, h2⟩ := not_isDigit_of_ends (h e rfl)
    rw [if_neg (by simp [h1, h2])]
  · rfl

private theorem decimalNat_cons (m : Nat) :
    ∃ b ds, Bytes.decimalNat m = b :: ds ∧ isDigit b = true := by
  cases hm : Bytes.decimalNat m with
  | nil =>
    rw [Bytes.decimalNat_eq] at hm
    simp at hm
  | cons b ds =>
    exact ⟨b, ds, rfl, Bytes.isDigit_of_mem_decimalNat m b (by rw [hm]; exact List.mem_cons_self)⟩

/-- The first byte of a decimal text is a digit or a minus sign. -/
theorem decimal_cons (n : Int) :
    ∃ b ds, Bytes.decimal n = b :: ds ∧ (isDigit b = true ∨ b = 0x2D) := by
  cases n with
  | ofNat m =>
    obtain ⟨b, ds, hb, hdigit⟩ := decimalNat_cons m
    exact ⟨b, ds, hb, Or.inl hdigit⟩
  | negSucc m => exact ⟨0x2D, _, rfl, Or.inr rfl⟩

/-- The decimal text of a number is taken whole. -/
theorem number?_decimal (n : Int) {rest : Bytes} (h : Ends rest) :
    number? (Bytes.decimal n ++ rest) = some (Bytes.decimal n, rest) := by
  cases n with
  | ofNat m =>
    -- The text of a number that is not negative has no sign to take off.
    have hsign : ∀ more, Bytes.decimalNat m ++ rest ≠ 0x2D :: more := by
      intro more he
      obtain ⟨b, ds, hb, hdigit⟩ := decimalNat_cons m
      rw [hb, List.cons_append] at he
      rw [(List.cons.inj he).1] at hdigit
      exact absurd hdigit (by decide)
    simp [number?, Bytes.decimal, whole?_decimalNat m h, fraction?_of_ends h, exponent?_of_ends h]
  | negSucc m =>
    simp [number?, Bytes.decimal, whole?_decimalNat (m + 1) h, fraction?_of_ends h,
      exponent?_of_ends h]

/-! ### Values -/

/-- A text spells a value: whatever ends it, the reader takes the text and gives the value, if it
may open `depth` levels. -/
def Spells (depth : Nat) (text : Bytes) (v : Json) : Prop :=
  ∀ fuel rest, 2 * text.length < fuel → Ends rest → value fuel depth (text ++ rest) = some (v, rest)

private theorem skipBlanks_append {gap : Bytes} (h : ∀ b ∈ gap, isBlank b = true) (rest : Bytes) :
    skipBlanks (gap ++ rest) = skipBlanks rest := by
  rw [skipBlanks, List.dropWhile_append_of_pos h, skipBlanks]

private theorem skipBlanks_cons {b : UInt8} (h : isBlank b = false) (rest : Bytes) :
    skipBlanks (b :: rest) = b :: rest := by
  rw [skipBlanks, List.dropWhile_cons_of_neg (by simp [h])]

/-- Blanks before a text do not change what it spells. -/
theorem Spells.blanks {depth : Nat} {text : Bytes} {v : Json} (hv : Spells depth text v)
    {gap : Bytes} (h : ∀ b ∈ gap, isBlank b = true) : Spells depth (gap ++ text) v := by
  intro fuel rest hfuel hends
  rw [List.length_append] at hfuel
  have hsame (input : Bytes) : value fuel depth (gap ++ input) = value fuel depth input := by
    cases fuel with
    | zero => simp [value]
    | succ fuel => rw [value, value, skipBlanks_append h]
  rw [List.append_assoc, hsame]
  exact hv fuel rest (by omega) hends

/-- A string spells the text that it shows. -/
theorem spells_string (depth : Nat) (markup : Bool) (s : Bytes) :
    Spells depth (stringText markup s) (.string (Utf8.repair s)) := by
  intro fuel rest hfuel _
  cases fuel with
  | zero => omega
  | succ fuel =>
    rw [stringText_append, value, skipBlanks_cons (by decide)]
    simp only [if_pos, string?_items]
    rfl

-- No other kind of value starts as a number does.
private theorem opens_number {b : UInt8} (h : isDigit b = true ∨ b = 0x2D) :
    isBlank b = false ∧ b ≠ 0x22 ∧ b ≠ 0x5B ∧ b ≠ 0x7B ∧ b ≠ 0x74 ∧ b ≠ 0x66 ∧ b ≠ 0x6E := by
  refine ⟨?_, ?_, ?_, ?_, ?_, ?_, ?_⟩
  · rw [← Bool.not_eq_true]
    intro hb
    obtain rfl | rfl | rfl | rfl : b = 0x20 ∨ b = 0x09 ∨ b = 0x0A ∨ b = 0x0D := by
      simpa [isBlank, or_assoc] using hb
    all_goals exact absurd h (by decide)
  all_goals
    rintro rfl
    exact absurd h (by decide)

/-- A decimal text spells its number. -/
theorem spells_int (depth : Nat) (n : Int) : Spells depth (Bytes.decimal n) (.int n) := by
  intro fuel rest hfuel hends
  obtain ⟨b, ds, hb, hhead⟩ := decimal_cons n
  obtain ⟨hblank, h1, h2, h3, h4, h5, h6⟩ := opens_number hhead
  have hnumber := number?_decimal n hends
  cases fuel with
  | zero => omega
  | succ fuel =>
    rw [int]
    rw [hb, List.cons_append] at hnumber ⊢
    rw [value, skipBlanks_cons hblank]
    simp only [h1, h2, h3, h4, h5, h6, if_false, hnumber]
    rfl

/-- The words spell their values. -/
theorem spells_word (depth : Nat) :
    Spells depth "null" .null ∧ Spells depth "true" (.bool true) ∧
      Spells depth "false" (.bool false) := by
  refine ⟨?_, ?_, ?_⟩
  all_goals
    intro fuel rest hfuel _
    cases fuel with
    | zero => omega
    | succ fuel =>
      rw [value]
      rfl

private theorem blank_nil : ∀ b ∈ ([] : Bytes), isBlank b = true := by simp

private theorem blank_space : ∀ b ∈ ([0x20] : Bytes), isBlank b = true := by simp [isBlank]

private theorem ends_gap {gap : Bytes} (h : ∀ b ∈ gap, isBlank b = true) {b : UInt8}
    (hb : b = 0x2C ∨ b = 0x5D ∨ b = 0x7D) (rest : Bytes) : Ends (gap ++ b :: rest) := by
  cases gap with
  | nil =>
    intro x hx
    obtain rfl : b = x := by simpa using hx
    exact Or.inr hb
  | cons y more =>
    intro x hx
    obtain rfl : y = x := by simpa using hx
    exact Or.inl (h y List.mem_cons_self)

private theorem ends_comma (rest : Bytes) : Ends (0x2C :: rest) :=
  ends_gap blank_nil (Or.inl rfl) rest

-- Parts with commas between them, and what follows them.
private theorem join_append (b c : Bytes) (more : List Bytes) (rest : Bytes) :
    Bytes.join [0x2C] (b :: c :: more) ++ rest =
      b ++ 0x2C :: (Bytes.join [0x2C] (c :: more) ++ rest) := by
  rw [Bytes.join_cons_cons, List.append_assoc, List.append_assoc]
  rfl

private theorem length_join (b c : Bytes) (more : List Bytes) :
    (Bytes.join [0x2C] (b :: c :: more)).length =
      b.length + (Bytes.join [0x2C] (c :: more)).length + 1 := by
  rw [Bytes.join_cons_cons, List.length_append, List.length_append, List.length_singleton]
  omega

private theorem items_last {fuel depth : Nat} {input gap rest : Bytes} {v : Json}
    (hgap : ∀ b ∈ gap, isBlank b = true)
    (hv : value fuel depth input = some (v, gap ++ 0x5D :: rest)) :
    items (fuel + 1) depth input = some ([v], rest) := by
  have hclose : skipBlanks (gap ++ 0x5D :: rest) = 0x5D :: rest := by
    rw [skipBlanks_append hgap, skipBlanks_cons (by decide)]
  rw [items, hv]
  simp only [Option.bind_eq_bind, Option.bind_some, hclose]
  rfl

private theorem items_next {fuel depth : Nat} {input more rest : Bytes} {v : Json} {vs : List Json}
    (hv : value fuel depth input = some (v, 0x2C :: more))
    (hvs : items fuel depth more = some (vs, rest)) :
    items (fuel + 1) depth input = some (v :: vs, rest) := by
  rw [items, hv]
  simp only [Option.bind_eq_bind, Option.bind_some, skipBlanks_cons (b := 0x2C) (by decide), hvs]
  rfl

/-- Items with commas between them are read in order, up to the bracket. -/
theorem items_join {depth : Nat} (write : Json → Bytes) (read : Json → Json) {gap : Bytes}
    (hgap : ∀ b ∈ gap, isBlank b = true) (vs : List Json) (hne : vs ≠ [])
    (h : ∀ v ∈ vs, Spells depth (write v) (read v)) (fuel : Nat) (rest : Bytes)
    (hfuel : 2 * (Bytes.join [0x2C] (vs.map write)).length + 1 < fuel) :
    items fuel depth (Bytes.join [0x2C] (vs.map write) ++ (gap ++ 0x5D :: rest)) =
      some (vs.map read, rest) := by
  induction vs generalizing fuel with
  | nil => exact absurd rfl hne
  | cons v more ih =>
    obtain ⟨fuel, rfl⟩ : ∃ k, fuel = k + 1 := ⟨fuel - 1, by omega⟩
    have hv := h v List.mem_cons_self fuel
    cases more with
    | nil =>
      simp only [List.map_cons, List.map_nil, Bytes.join_singleton] at hfuel ⊢
      exact items_last hgap (hv _ (by omega) (ends_gap hgap (by decide) rest))
    | cons w others =>
      have hmore := ih (by simp) (fun x hx ↦ h x (List.mem_cons_of_mem v hx)) fuel
      simp only [List.map_cons, length_join, join_append] at hfuel hmore ⊢
      exact items_next (hv _ (by omega) (ends_comma _)) (hmore (by omega))

/-- A field as it is written: a gap, the name, a colon and the value. -/
def fieldText (gap : Bytes) (write : Json → Bytes) (f : Bytes × Json) : Bytes :=
  gap ++ stringText true f.1 ++ 0x3A :: write f.2

-- The reader takes the name and the colon off a field.
private theorem fields_field {fuel depth : Nat} {gap : Bytes} (hgap : ∀ b ∈ gap, isBlank b = true)
    (write : Json → Bytes) (f : Bytes × Json) (rest : Bytes) :
    fields (fuel + 1) depth (fieldText gap write f ++ rest) =
      (value fuel depth (write f.2 ++ rest)).bind fun r ↦
        match skipBlanks r.2 with
        | 0x7D :: after => some ([(Utf8.repair f.1, r.1)], after)
        | 0x2C :: more =>
          (fields fuel depth more).bind fun s ↦ some ((Utf8.repair f.1, r.1) :: s.1, s.2)
        | _ => none := by
  rw [fieldText, List.append_assoc, List.append_assoc, stringText_append, fields,
    skipBlanks_append hgap, skipBlanks_cons (by decide)]
  simp only [string?_items, Option.bind_eq_bind, Option.bind_some, List.cons_append,
    skipBlanks_cons (b := 0x3A) (by decide)]
  rfl

/-- Fields with commas between them are read in order, up to the brace. -/
theorem fields_join {depth : Nat} (write : Json → Bytes) (read : Json → Json) {lead gap : Bytes}
    (hlead : ∀ b ∈ lead, isBlank b = true) (hgap : ∀ b ∈ gap, isBlank b = true)
    (fs : List (Bytes × Json)) (hne : fs ≠ [])
    (h : ∀ f ∈ fs, Spells depth (write f.2) (read f.2)) (fuel : Nat) (rest : Bytes)
    (hfuel : 2 * (Bytes.join [0x2C] (fs.map (fieldText lead write))).length + 1 < fuel) :
    fields fuel depth
        (Bytes.join [0x2C] (fs.map (fieldText lead write)) ++ (gap ++ 0x7D :: rest)) =
      some (fs.map fun f ↦ (Utf8.repair f.1, read f.2), rest) := by
  have hwrite (f : Bytes × Json) : (write f.2).length ≤ (fieldText lead write f).length := by
    rw [fieldText, List.length_append, List.length_cons]
    omega
  induction fs generalizing fuel with
  | nil => exact absurd rfl hne
  | cons f more ih =>
    obtain ⟨fuel, rfl⟩ : ∃ k, fuel = k + 1 := ⟨fuel - 1, by omega⟩
    have hf := h f List.mem_cons_self fuel
    have hlength := hwrite f
    cases more with
    | nil =>
      have hclose : skipBlanks (gap ++ 0x7D :: rest) = 0x7D :: rest := by
        rw [skipBlanks_append hgap, skipBlanks_cons (by decide)]
      simp only [List.map_cons, List.map_nil, Bytes.join_singleton] at hfuel ⊢
      rw [fields_field hlead, hf _ (by omega) (ends_gap hgap (by decide) rest)]
      simp only [Option.bind_some, hclose]
    | cons g others =>
      have hmore := ih (by simp) (fun x hx ↦ h x (List.mem_cons_of_mem f hx)) fuel
      simp only [List.map_cons, length_join, join_append] at hfuel hmore ⊢
      rw [fields_field hlead, hf _ (by omega) (ends_comma _)]
      simp only [Option.bind_some, skipBlanks_cons (b := 0x2C) (by decide), hmore (by omega)]

private theorem value_bracket {fuel depth : Nat} {input after : Bytes}
    (h : skipBlanks input = 0x5D :: after) : value fuel depth input = none := by
  cases fuel with
  | zero => simp [value]
  | succ fuel =>
    rw [value, h]
    rfl

private theorem value_array (fuel depth : Nat) (rest : Bytes) :
    value (fuel + 1) (depth + 1) (0x5B :: rest) =
      match skipBlanks rest with
      | 0x5D :: after => some (.array [], after)
      | _ => (items fuel depth rest).map fun r ↦ (.array r.1, r.2) := by
  rw [value, skipBlanks_cons (by decide)]
  rfl

-- Where items are read there is no bracket in their place.
private theorem value_of_items {fuel depth : Nat} {input rest : Bytes} {vs : List Json}
    (h : items fuel depth input = some (vs, rest)) :
    value (fuel + 1) (depth + 1) (0x5B :: input) = some (.array vs, rest) := by
  rw [value_array]
  split
  · next after ha =>
    cases fuel with
    | zero => simp [items] at h
    | succ fuel =>
      rw [items, value_bracket ha] at h
      cases h
  · rw [h]
    rfl

private theorem value_object (fuel depth : Nat) (rest : Bytes) :
    value (fuel + 1) (depth + 1) (0x7B :: rest) =
      match skipBlanks rest with
      | 0x7D :: after => some (.object [], after)
      | _ => (fields fuel depth rest).map fun r ↦ (.object r.1, r.2) := by
  rw [value, skipBlanks_cons (by decide)]
  rfl

private theorem value_of_fields {fuel depth : Nat} {input rest : Bytes} {fs : List (Bytes × Json)}
    (h : fields fuel depth input = some (fs, rest)) :
    value (fuel + 1) (depth + 1) (0x7B :: input) = some (.object fs, rest) := by
  rw [value_object]
  split
  · next after ha =>
    cases fuel with
    | zero => simp [fields] at h
    | succ fuel =>
      rw [fields, ha] at h
      cases h
  · rw [h]
    rfl

/-- Items between brackets spell an array. -/
theorem spells_array {depth : Nat} (write : Json → Bytes) (read : Json → Json) {gap : Bytes}
    (hgap : ∀ b ∈ gap, isBlank b = true) (vs : List Json)
    (h : ∀ v ∈ vs, Spells depth (write v) (read v)) :
    Spells (depth + 1) (0x5B :: (Bytes.join [0x2C] (vs.map write) ++ (gap ++ [0x5D])))
      (.array (vs.map read)) := by
  intro fuel rest hfuel _
  obtain ⟨fuel, rfl⟩ : ∃ k, fuel = k + 1 := ⟨fuel - 1, by omega⟩
  simp only [List.length_cons, List.length_append, List.length_nil] at hfuel
  rw [List.cons_append, List.append_assoc, List.append_assoc, List.singleton_append]
  by_cases hvs : vs = []
  · subst hvs
    rw [value_array, List.map_nil, Bytes.join_nil, List.nil_append, skipBlanks_append hgap,
      skipBlanks_cons (by decide)]
    rfl
  · exact value_of_items (items_join write read hgap vs hvs h fuel rest (by omega))

/-- Fields between braces spell an object. -/
theorem spells_object {depth : Nat} (write : Json → Bytes) (read : Json → Json) {lead gap : Bytes}
    (hlead : ∀ b ∈ lead, isBlank b = true) (hgap : ∀ b ∈ gap, isBlank b = true)
    (fs : List (Bytes × Json)) (h : ∀ f ∈ fs, Spells depth (write f.2) (read f.2)) :
    Spells (depth + 1)
      (0x7B :: (Bytes.join [0x2C] (fs.map (fieldText lead write)) ++ (gap ++ [0x7D])))
      (.object (fs.map fun f ↦ (Utf8.repair f.1, read f.2))) := by
  intro fuel rest hfuel _
  obtain ⟨fuel, rfl⟩ : ∃ k, fuel = k + 1 := ⟨fuel - 1, by omega⟩
  simp only [List.length_cons, List.length_append, List.length_nil] at hfuel
  rw [List.cons_append, List.append_assoc, List.append_assoc, List.singleton_append]
  by_cases hfs : fs = []
  · subst hfs
    rw [value_object, List.map_nil, Bytes.join_nil, List.nil_append, skipBlanks_append hgap,
      skipBlanks_cons (by decide)]
    rfl
  · exact value_of_fields (fields_join write read hlead hgap fs hfs h fuel rest (by omega))

/-! ### Layouts -/

/-- Items on one line are joined by commas. -/
theorem compactItems_eq (vs : List Json) :
    compactItems vs = Bytes.join [0x2C] (vs.map compact) := by
  induction vs with
  | nil => rfl
  | cons v more ih =>
    rw [compactItems, ih]
    cases more with
    | nil => simp
    | cons w others => simp [Bytes.join_cons_cons]

/-- Fields on one line are joined by commas. -/
theorem compactFields_eq (fs : List (Bytes × Json)) :
    compactFields fs = Bytes.join [0x2C] (fs.map (fieldText [] compact)) := by
  induction fs with
  | nil => rfl
  | cons f more ih =>
    obtain ⟨name, v⟩ := f
    rw [compactFields, ih]
    cases more with
    | nil => simp [fieldText]
    | cons g others => simp [Bytes.join_cons_cons, fieldText]

/-- Indented items are joined by commas. -/
theorem indentedItems_eq (look : Look) (level : Nat) (vs : List Json) :
    indentedItems look level vs =
      Bytes.join [0x2C] (vs.map fun v ↦ newline level ++ indented look level v) := by
  induction vs with
  | nil => rfl
  | cons v more ih =>
    rw [indentedItems, ih]
    cases more with
    | nil => simp
    | cons w others => simp [Bytes.join_cons_cons]

/-- Indented fields are joined by commas. -/
theorem indentedFields_eq (level : Nat) (fs : List (Bytes × Json)) :
    indentedFields .plain level fs = Bytes.join [0x2C]
      (fs.map (fieldText (newline level) fun v ↦ 0x20 :: indented .plain level v)) := by
  induction fs with
  | nil => rfl
  | cons f more ih =>
    obtain ⟨name, v⟩ := f
    rw [indentedFields, ih]
    cases more with
    | nil => simp [fieldText, Look.plain]
    | cons g others => simp [Bytes.join_cons_cons, fieldText, Look.plain]

mutual

/-- A value with the stray bytes of its strings replaced. -/
def repaired : Json → Json
  | .string s => .string (Utf8.repair s)
  | .array items => .array (repairedItems items)
  | .object fields => .object (repairedFields fields)
  | v => v

/-- Items with the stray bytes of their strings replaced. -/
def repairedItems : List Json → List Json
  | [] => []
  | v :: rest => repaired v :: repairedItems rest

/-- Fields with the stray bytes of their names and strings replaced. -/
def repairedFields : List (Bytes × Json) → List (Bytes × Json)
  | [] => []
  | (name, v) :: rest => (Utf8.repair name, repaired v) :: repairedFields rest

end

@[simp] theorem repaired_string (s : Bytes) :
    (Json.string s).repaired = .string (Utf8.repair s) := rfl

@[simp] theorem repaired_int (n : Int) : (Json.int n).repaired = .int n := rfl

/-- Each item is repaired on its own. -/
theorem repairedItems_eq (vs : List Json) : repairedItems vs = vs.map repaired := by
  induction vs with
  | nil => rfl
  | cons v rest ih => rw [repairedItems, ih, List.map_cons]

/-- Each field is repaired on its own. -/
theorem repairedFields_eq (fs : List (Bytes × Json)) :
    repairedFields fs = fs.map fun f ↦ (Utf8.repair f.1, repaired f.2) := by
  induction fs with
  | nil => rfl
  | cons f rest ih => rw [repairedFields, ih, List.map_cons]

/-- The values whose numbers are whole and whose arrays and objects nest at most so deep. -/
inductive Whole : Nat → Json → Prop where
  | null (depth : Nat) : Whole depth .null
  | bool (depth : Nat) (b : Bool) : Whole depth (.bool b)
  | int (depth : Nat) (n : Int) : Whole depth (.int n)
  | string (depth : Nat) (s : Bytes) : Whole depth (.string s)
  | array (depth : Nat) (items : List Json) (h : ∀ v ∈ items, Whole depth v) :
    Whole (depth + 1) (.array items)
  | object (depth : Nat) (fields : List (Bytes × Json)) (h : ∀ f ∈ fields, Whole depth f.2) :
    Whole (depth + 1) (.object fields)

/-- A value on one line spells itself, stray bytes replaced. -/
theorem Whole.spells_compact {depth : Nat} {v : Json} (h : Whole depth v) :
    Spells depth v.compact v.repaired := by
  induction h with
  | null depth => exact (spells_word depth).1
  | bool depth b =>
    cases b with
    | true => exact (spells_word depth).2.1
    | false => exact (spells_word depth).2.2
  | int depth n => exact spells_int depth n
  | string depth s => exact spells_string depth true s
  | array depth vs _ ih =>
    rw [compact, compactItems_eq, repaired, repairedItems_eq]
    exact spells_array compact repaired blank_nil vs ih
  | object depth fs _ ih =>
    rw [compact, compactFields_eq, repaired, repairedFields_eq]
    exact spells_object compact repaired blank_nil blank_nil fs ih

private theorem isBlank_newline (level : Nat) : ∀ b ∈ newline level, isBlank b = true := by
  intro b hb
  rcases List.mem_cons.mp hb with rfl | hb
  · rfl
  · rw [(List.mem_replicate.mp hb).2]
    rfl

/-- So does an indented value, at every level. -/
theorem Whole.spells_indented {depth : Nat} {v : Json} (h : Whole depth v) (level : Nat) :
    Spells depth (v.indented .plain level) v.repaired := by
  induction h generalizing level with
  | null depth => exact (spells_word depth).1
  | bool depth b =>
    cases b with
    | true => exact (spells_word depth).2.1
    | false => exact (spells_word depth).2.2
  | int depth n => exact spells_int depth n
  | string depth s => exact spells_string depth true s
  | array depth vs _ ih =>
    rw [indented, repaired, repairedItems_eq]
    split
    · next hvs =>
      rw [List.isEmpty_iff.mp hvs]
      exact spells_array compact repaired blank_nil [] (by simp)
    · rw [indentedItems_eq, List.cons_append, List.cons_append, List.append_assoc]
      exact spells_array (fun v ↦ newline (level + 1) ++ indented .plain (level + 1) v)
        repaired (isBlank_newline level) vs
        fun v hv ↦ (ih v hv (level + 1)).blanks (isBlank_newline (level + 1))
  | object depth fs _ ih =>
    rw [indented, repaired, repairedFields_eq]
    split
    · next hfs =>
      rw [List.isEmpty_iff.mp hfs]
      exact spells_object compact repaired blank_nil blank_nil [] (by simp)
    · rw [indentedFields_eq, List.cons_append, List.cons_append, List.append_assoc]
      exact spells_object (fun v ↦ 0x20 :: indented .plain (level + 1) v) repaired
        (isBlank_newline (level + 1)) (isBlank_newline level) fs
        fun f hf ↦ (ih f hf (level + 1)).blanks blank_space

/-- A text that spells a value is read as this value. -/
theorem Spells.parse?_eq {text : Bytes} {v : Json} (h : Spells maxNesting text v) :
    parse? text = some v := by
  have hvalue := h (2 * text.length + 2) [] (by omega) (by simp [Ends])
  rw [List.append_nil] at hvalue
  rw [parse?, hvalue]
  rfl

end Json

end GrammarCode
