import Mathlib.Data.List.TakeWhile
import LiterateSync.Proofs.Wire.Literals

namespace LiterateSync.Json

/-- White space, which the reader skips between the parts of a value. -/
def Blank (s : List Char) : Prop :=
  skipSpace s = []

mutual

/-- Texts that spell a value, with its strings and numbers as they are written here. White space
    may stand between the parts of arrays and objects, but not in front or behind. -/
inductive Spells : Json → List Char → Prop
  | null : Spells .null "null".toList
  | true : Spells (.bool true) "true".toList
  | false : Spells (.bool false) "false".toList
  | nat {n : Nat} (hn : n < Nat.pow 2 64) : Spells (.nat n) (toString n).toList
  | string (s : String) : Spells (.string s) (quote s)
  | emptyArray : Spells (.array []) ['[', ']']
  | array {items : List Json} {before s after : List Char} (hbefore : Blank before)
      (hitems : SpellsItems items s) (hafter : Blank after) :
      Spells (.array items) ('[' :: before ++ s ++ after ++ [']'])
  | emptyObject : Spells (.object []) ['{', '}']
  | object {fields : List (String × Json)} {before s after : List Char} (hbefore : Blank before)
      (hfields : SpellsFields fields s) (hafter : Blank after) :
      Spells (.object fields) ('{' :: before ++ s ++ after ++ ['}'])

/-- The texts that spell the items of an array, of which there is at least one. -/
inductive SpellsItems : List Json → List Char → Prop
  | one {v : Json} {s : List Char} (hv : Spells v s) : SpellsItems [v] s
  | cons {v : Json} {vs : List Json} {s gap t : List Char} (hv : Spells v s) (hgap : Blank gap)
      (hvs : SpellsItems vs t) : SpellsItems (v :: vs) (s ++ ',' :: gap ++ t)

/-- The texts that spell the fields of an object, of which there is at least one. -/
inductive SpellsFields : List (String × Json) → List Char → Prop
  | one {v : Json} {k : String} {gap s : List Char} (hgap : Blank gap) (hv : Spells v s) :
      SpellsFields [(k, v)] (quote k ++ ':' :: gap ++ s)
  | cons {v : Json} {k : String} {fs : List (String × Json)} {gap s next t : List Char}
      (hgap : Blank gap) (hv : Spells v s) (hnext : Blank next) (hfs : SpellsFields fs t) :
      SpellsFields ((k, v) :: fs) (quote k ++ ':' :: gap ++ s ++ ',' :: next ++ t)

end

theorem blank_nil : Blank [] :=
  rfl

theorem blank_space : Blank [' '] :=
  rfl

/-! ### Reading what is spelled -/

theorem skipSpace_append {gap : List Char} (hgap : Blank gap) (s : List Char) :
    skipSpace (gap ++ s) = skipSpace s :=
  List.dropWhile_append_of_pos (List.dropWhile_eq_nil_iff.1 hgap)

theorem value?_append {gap : List Char} (hgap : Blank gap) (n : Nat) (s : List Char) :
    value? n (gap ++ s) = value? n s := by
  cases n with
  | zero => rfl
  | succ n => simp only [value?, skipSpace_append hgap]

theorem items?_append {gap : List Char} (hgap : Blank gap) (n : Nat) (s : List Char) :
    items? n (gap ++ s) = items? n s := by
  cases n with
  | zero => rfl
  | succ n => simp only [items?, value?_append hgap]

theorem fields?_append {gap : List Char} (hgap : Blank gap) (n : Nat) (s : List Char) :
    fields? n (gap ++ s) = fields? n s := by
  cases n with
  | zero => rfl
  | succ n => simp only [fields?, skipSpace_append hgap]

theorem skipSpace_of_isDigit {d : Char} (hd : d.isDigit) (s : List Char) :
    skipSpace (d :: s) = d :: s := by
  refine List.dropWhile_cons_of_neg ?_
  rintro hspace
  obtain ((rfl | rfl) | rfl) | rfl :
      ((d = ' ' ∨ d = '\n') ∨ d = '\t') ∨ d = '\r' := by simpa using hspace
  all_goals simp at hd

theorem skipSpace_quote (s : String) (r : List Char) :
    skipSpace (quote s ++ r) = '"' :: (s.toList.flatMap escape ++ '"' :: r) := by
  simp [quote, skipSpace]

theorem value?_of_digit {d : Char} (hd : d.isDigit) (n : Nat) (s : List Char) :
    value? (n + 1) (d :: s) = number? (d :: s) := by
  rw [value?, skipSpace_of_isDigit hd]
  split
  all_goals simp_all

/-- What spells a value starts with a character that is not skipped and closes no array. -/
theorem Spells.exists_cons {v : Json} {s : List Char} (h : Spells v s) :
    ∃ c t, s = c :: t ∧ (∀ r, skipSpace (c :: r) = c :: r) ∧ c ≠ ']' := by
  cases h with
  | nat hn =>
    obtain ⟨d, ds, hcons, hd⟩ := Text.exists_digit_toDigits _
    exact ⟨d, ds, (Text.toList_toString _).trans hcons, skipSpace_of_isDigit hd, by rintro rfl; simp at hd⟩
  | _ => exact ⟨_, _, rfl, fun _ => rfl, by decide⟩

theorem SpellsItems.exists_cons {vs : List Json} {s : List Char} (h : SpellsItems vs s) :
    ∃ c t, s = c :: t ∧ (∀ r, skipSpace (c :: r) = c :: r) ∧ c ≠ ']' := by
  cases h with
  | one hv => exact hv.exists_cons
  | cons hv hgap hvs =>
    obtain ⟨c, t, rfl, hc⟩ := hv.exists_cons
    exact ⟨c, _, rfl, hc⟩

theorem SpellsFields.exists_cons {fs : List (String × Json)} {s : List Char}
    (h : SpellsFields fs s) : ∃ t, s = '"' :: t := by
  cases h with
  | one => exact ⟨_, rfl⟩
  | cons => exact ⟨_, rfl⟩

/-- An array is read by its items, which follow the white space behind its bracket. -/
theorem value?_of_items {items : List Json} {before s r : List Char} (hbefore : Blank before)
    (hitems : SpellsItems items s) (n : Nat) :
    value? (n + 1) ('[' :: (before ++ (s ++ r))) =
      (items? n (s ++ r)).map fun (items, r) => (.array items, r) := by
  obtain ⟨c, t, rfl, hspace, hc⟩ := hitems.exists_cons
  have hskip : skipSpace (before ++ (c :: t ++ r)) = c :: (t ++ r) := by
    rw [skipSpace_append hbefore, List.cons_append, hspace]
  have hopen : skipSpace ('[' :: (before ++ (c :: t ++ r))) =
      '[' :: (before ++ (c :: t ++ r)) := rfl
  simp only [value?, hopen, hskip]
  split
  · next heq => exact absurd (List.cons.inj heq).1 hc
  · rfl

theorem value?_of_fields {fields : List (String × Json)} {before s r : List Char}
    (hbefore : Blank before) (hfields : SpellsFields fields s) (n : Nat) :
    value? (n + 1) ('{' :: (before ++ (s ++ r))) =
      (fields? n (s ++ r)).map fun (fields, r) => (ofFields fields, r) := by
  obtain ⟨t, rfl⟩ := hfields.exists_cons
  have hskip : skipSpace (before ++ ('"' :: t ++ r)) = '"' :: (t ++ r) := by
    rw [skipSpace_append hbefore]
    rfl
  have hopen : skipSpace ('{' :: (before ++ ('"' :: t ++ r))) =
      '{' :: (before ++ ('"' :: t ++ r)) := rfl
  simp only [value?, hopen, hskip]
  rfl

theorem ofFields_map_some (fields : List (String × Json)) :
    ofFields (fields.map fun f => (some f.1, f.2)) = .object fields := by
  simp [ofFields, List.filterMap_map, Function.comp_def]

theorem endsNumber_append {gap r : List Char} (hgap : Blank gap) (hr : EndsNumber r) :
    EndsNumber (gap ++ r) := by
  cases gap with
  | nil => exact hr
  | cons c gap =>
    have hspace := List.dropWhile_eq_nil_iff.1 hgap c List.mem_cons_self
    obtain ((rfl | rfl) | rfl) | rfl :
        ((c = ' ' ∨ c = '\n') ∨ c = '\t') ∨ c = '\r' := by simpa using hspace
    all_goals simp [EndsNumber]

-- The induction is on the spelling. A value takes at most two calls for each of its characters,
-- since every item has a call of its own and one for the rest of the items.
mutual

theorem value?_of_spells {v : Json} {s : List Char} (h : Spells v s) {n : Nat} {r : List Char}
    (hr : EndsNumber r) (hn : 2 * s.length ≤ n) : value? n (s ++ r) = some (v, r) := by
  obtain ⟨m, rfl⟩ : ∃ m, n = m + 1 := by
    obtain ⟨c, t, rfl, -⟩ := h.exists_cons
    exact ⟨n - 1, by simp at hn; omega⟩
  cases h with
  | null | true | false | emptyArray | emptyObject => rfl
  | @nat k hk =>
    obtain ⟨d, ds, hcons, hd⟩ := Text.exists_digit_toDigits k
    rw [← number?_toString hk hr, Text.toList_toString, hcons]
    exact value?_of_digit hd m (ds ++ r)
  | string t =>
    simp only [value?, skipSpace_quote, name?_quote]
    rfl
  | @array items before s after hbefore hitems hafter =>
    have hread := items?_of_spells hitems hafter (n := m) (r := r) (by simp at hn; omega)
    simpa [hread] using value?_of_items (r := after ++ ']' :: r) hbefore hitems m
  | @object fields before s after hbefore hfields hafter =>
    have hread := fields?_of_spells hfields hafter (n := m) (r := r) (by simp at hn; omega)
    simpa [hread, ofFields_map_some] using
      value?_of_fields (r := after ++ '}' :: r) hbefore hfields m

theorem items?_of_spells {vs : List Json} {s after : List Char} (h : SpellsItems vs s)
    (hafter : Blank after) {n : Nat} {r : List Char} (hn : 2 * s.length + 1 ≤ n) :
    items? n (s ++ (after ++ ']' :: r)) = some (vs, r) := by
  obtain ⟨m, rfl⟩ : ∃ m, n = m + 1 := ⟨n - 1, by omega⟩
  cases h with
  | one hv =>
    have hends : EndsNumber (after ++ ']' :: r) := endsNumber_append hafter (by simp [EndsNumber])
    have hclose : skipSpace (after ++ ']' :: r) = ']' :: r := skipSpace_append hafter _
    simp [items?, value?_of_spells hv hends (n := m) (by omega), hclose]
  | @cons v vs s gap t hv hgap hvs =>
    have hends : EndsNumber (',' :: (gap ++ (t ++ (after ++ ']' :: r)))) := by simp [EndsNumber]
    have hnext : ∀ r, skipSpace (',' :: r) = ',' :: r := fun _ => rfl
    have hrest : items? m (t ++ (after ++ ']' :: r)) = some (vs, r) :=
      items?_of_spells hvs hafter (by simp at hn; omega)
    have hvalue := value?_of_spells hv hends (n := m) (by simp at hn; omega)
    simp [items?, hvalue, hnext, items?_append hgap, hrest]

theorem fields?_of_spells {fs : List (String × Json)} {s after : List Char}
    (h : SpellsFields fs s) (hafter : Blank after) {n : Nat} {r : List Char}
    (hn : 2 * s.length + 1 ≤ n) :
    fields? n (s ++ (after ++ '}' :: r)) = some (fs.map fun f => (some f.1, f.2), r) := by
  obtain ⟨m, rfl⟩ : ∃ m, n = m + 1 := ⟨n - 1, by omega⟩
  have hcolon : ∀ r, skipSpace (':' :: r) = ':' :: r := fun _ => rfl
  cases h with
  | @one v k gap s hgap hv =>
    have hends : EndsNumber (after ++ '}' :: r) := endsNumber_append hafter (by simp [EndsNumber])
    have hclose : skipSpace (after ++ '}' :: r) = '}' :: r := skipSpace_append hafter _
    have hvalue := value?_of_spells hv hends (n := m) (by simp at hn; omega)
    simp [fields?, skipSpace_quote, name?_quote, hcolon, value?_append hgap, hvalue, hclose]
  | @cons v k fs gap s next t hgap hv hnext hfs =>
    have hends : EndsNumber (',' :: (next ++ (t ++ (after ++ '}' :: r)))) := by simp [EndsNumber]
    have hcomma : ∀ r, skipSpace (',' :: r) = ',' :: r := fun _ => rfl
    have hrest : fields? m (t ++ (after ++ '}' :: r)) =
        some (fs.map fun f => (some f.1, f.2), r) :=
      fields?_of_spells hfs hafter (by simp at hn; omega)
    have hvalue := value?_of_spells hv hends (n := m) (by simp at hn; omega)
    simp [fields?, skipSpace_quote, name?_quote, hcolon, value?_append hgap, hvalue, hcomma,
      fields?_append hnext, hrest]

end

/-- A text that spells a value is read as that value. -/
theorem parse?_of_spells {v : Json} {s : List Char} (h : Spells v s) :
    parse? (String.ofList s) = some v := by
  have hvalue := value?_of_spells h endsNumber_nil (n := 2 * s.length + 2) (by omega)
  rw [List.append_nil] at hvalue
  simp [parse?, hvalue, skipSpace]

/-! ### What the program writes -/

/-- A value that is written as it is read: it has no numbers but those of 64 bits, and has
    arrays and objects within one another to a depth of at most `room`. -/
inductive IsExact : Nat → Json → Prop
  | null {room : Nat} : IsExact room .null
  | bool {room : Nat} (b : Bool) : IsExact room (.bool b)
  | nat {room n : Nat} (hn : n < Nat.pow 2 64) : IsExact room (.nat n)
  | string {room : Nat} (s : String) : IsExact room (.string s)
  | array {room : Nat} {items : List Json} (h : ∀ v ∈ items, IsExact room v) :
      IsExact (room + 1) (.array items)
  | object {room : Nat} {fields : List (String × Json)} (h : ∀ f ∈ fields, IsExact room f.2) :
      IsExact (room + 1) (.object fields)

theorem spellsItems_itemChars {v : Json} {vs : List Json} (h : ∀ w ∈ v :: vs, Spells w w.chars) :
    SpellsItems (v :: vs) (itemChars (v :: vs)) := by
  induction vs generalizing v with
  | nil => exact .one (h v (by simp))
  | cons w vs ih =>
    have hrest := ih fun u hu => h u (List.mem_cons_of_mem v hu)
    simpa [itemChars] using SpellsItems.cons (h v (by simp)) blank_nil hrest

theorem spellsFields_fieldChars {f : String × Json} {fs : List (String × Json)}
    (h : ∀ g ∈ f :: fs, Spells g.2 g.2.chars) :
    SpellsFields (f :: fs) (fieldChars (f :: fs)) := by
  induction fs generalizing f with
  | nil => simpa [fieldChars] using SpellsFields.one (k := f.1) blank_nil (h f (by simp))
  | cons g fs ih =>
    have hrest := ih fun u hu => h u (List.mem_cons_of_mem f hu)
    simpa [fieldChars] using
      SpellsFields.cons (k := f.1) blank_nil (h f (by simp)) blank_nil hrest

theorem IsExact.spells_chars {room : Nat} {v : Json} (h : IsExact room v) : Spells v v.chars := by
  induction h with
  | null => exact .null
  | bool b => cases b with
    | false => exact .false
    | true => exact .true
  | nat hn => exact .nat hn
  | string s => exact .string s
  | @array _ items _ ih =>
    cases items with
    | nil => exact .emptyArray
    | cons v vs =>
      simpa [chars] using
        Spells.array blank_nil (spellsItems_itemChars ih) blank_nil
  | @object _ fields _ ih =>
    cases fields with
    | nil => exact .emptyObject
    | cons f fs =>
      simpa [chars] using
        Spells.object blank_nil (spellsFields_fieldChars ih) blank_nil

theorem blank_newline (depth : Nat) : Blank (newline depth) := by
  refine List.dropWhile_eq_nil_iff.2 fun c hc => ?_
  obtain rfl | hc : c = '\n' ∨ c ∈ List.replicate (2 * depth) ' ' := by simpa [newline] using hc
  · rfl
  · rw [List.eq_of_mem_replicate hc]
    rfl

theorem spellsItems_prettyItems {depth : Nat} {v : Json} {vs : List Json}
    (h : ∀ w ∈ v :: vs, Spells w (w.prettyChars depth)) :
    SpellsItems (v :: vs) (prettyItems depth (v :: vs)) := by
  induction vs generalizing v with
  | nil => exact .one (h v (by simp))
  | cons w vs ih =>
    have hrest := ih fun u hu => h u (List.mem_cons_of_mem v hu)
    exact .cons (h v (by simp)) (blank_newline depth) hrest

theorem spellsFields_prettyFields {depth : Nat} {f : String × Json} {fs : List (String × Json)}
    (h : ∀ g ∈ f :: fs, Spells g.2 (g.2.prettyChars depth)) :
    SpellsFields (f :: fs) (prettyFields depth (f :: fs)) := by
  induction fs generalizing f with
  | nil =>
    simpa [prettyFields] using SpellsFields.one (k := f.1) blank_space (h f (by simp))
  | cons g fs ih =>
    have hrest := ih fun u hu => h u (List.mem_cons_of_mem f hu)
    simpa [prettyFields] using
      SpellsFields.cons (k := f.1) blank_space (h f (by simp)) (blank_newline depth) hrest

theorem IsExact.spells_prettyChars {room : Nat} {v : Json} (h : IsExact room v) (depth : Nat) :
    Spells v (v.prettyChars depth) := by
  induction h generalizing depth with
  | null => exact .null
  | bool b => cases b with
    | false => exact .false
    | true => exact .true
  | nat hn => exact .nat hn
  | string s => exact .string s
  | @array _ items _ ih =>
    cases items with
    | nil => exact .emptyArray
    | cons v vs =>
      exact .array (blank_newline _) (spellsItems_prettyItems fun w hw => ih w hw (depth + 1))
        (blank_newline _)
  | @object _ fields _ ih =>
    cases fields with
    | nil => exact .emptyObject
    | cons f fs =>
      exact .object (blank_newline _) (spellsFields_prettyFields fun g hg => ih g hg (depth + 1))
        (blank_newline _)

/-- What is written on one line is read as it was. -/
theorem IsExact.parse?_render {room : Nat} {v : Json} (h : IsExact room v) :
    parse? v.render = some v :=
  parse?_of_spells h.spells_chars

/-- What is written over several lines is read as it was. -/
theorem IsExact.parse?_renderPretty {room : Nat} {v : Json} (h : IsExact room v) :
    parse? v.renderPretty = some v :=
  parse?_of_spells (h.spells_prettyChars 0)

theorem allPlain_iff {room : Nat} {items : List Json} :
    allPlain room items ↔ ∀ v ∈ items, v.isPlain room := by
  induction items with
  | nil => simp [allPlain]
  | cons v vs ih => simp [allPlain, ih]

theorem allFieldsPlain_iff {room : Nat} {fields : List (String × Json)} :
    allFieldsPlain room fields ↔ ∀ f ∈ fields, f.2.isPlain room := by
  induction fields with
  | nil => simp [allFieldsPlain]
  | cons f fs ih => simp [allFieldsPlain, ih]

/-- What is written can be kept until its type is known. -/
theorem IsExact.isPlain {room : Nat} {v : Json} (h : IsExact room v) : v.isPlain room := by
  induction h with
  | null | bool | nat | string => simp [Json.isPlain]
  | array _ ih => simpa [Json.isPlain] using allPlain_iff.2 ih
  | object _ ih => simpa [Json.isPlain] using allFieldsPlain_iff.2 ih

end LiterateSync.Json
