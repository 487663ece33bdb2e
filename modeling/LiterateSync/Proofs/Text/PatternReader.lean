import LiterateSync.Proofs.Text.Regex
import LiterateSync.Text.Pattern.Library

namespace LiterateSync.Text

namespace PatternReader

variable {s r : List Char}

theorem item?_of_ne {c : Char} (hc : c ≠ '\\') (s : List Char) :
    item? (c :: s) = some (.range c c, s) := by
  unfold item?
  split <;> simp_all

theorem item?_append {item : ClassItem} (h : item? s = some (item, r)) (t : List Char) :
    item? (s ++ t) = some (item, r ++ t) := by
  cases s with
  | nil => cases h
  | cons c s =>
    by_cases hc : c = '\\'
    · subst hc
      cases s with
      | nil => cases h
      | cons d s =>
        obtain ⟨found, hfound, heq⟩ := Option.map_eq_some_iff.1 h
        cases heq
        simp [item?, hfound]
    · rw [item?_of_ne hc] at h
      cases h
      exact item?_of_ne hc _

theorem rangeFrom?_append {low item : ClassItem} (h : rangeFrom? low s = some (item, r))
    (t : List Char) : rangeFrom? low (s ++ t) = some (item, r ++ t) := by
  unfold rangeFrom? at h
  split at h
  · rename_i hitem
    split at h
    · rename_i hle
      cases h
      simp [rangeFrom?, item?_append hitem, hle]
    · cases h
  · cases h

/-- What is read of a class does not depend on what stands behind a closing parenthesis. -/
theorem member?_append {item : ClassItem} (h : member? s = some (item, r)) (t : List Char) :
    member? (s ++ ')' :: t) = some (item, r ++ ')' :: t) := by
  unfold member? at h ⊢
  split at h
  · rename_i low r' hitem
    have hhead : (r' ++ ')' :: t).head? = some ']' ↔ r'.head? = some ']' := by
      cases r' <;> simp
    rw [item?_append hitem, List.cons_append]
    simp only [hhead]
    split at h
    · rename_i hclose
      cases h
      rw [if_pos hclose, List.cons_append]
    · rename_i hclose
      rw [if_neg hclose]
      exact rangeFrom?_append h _
  · rename_i hfound
    rw [item?_append h]
    cases r with
    | nil => rfl
    | cons c r =>
      split
      · rename_i heq
        cases heq
        exact absurd h (hfound _ _)
      · rfl

theorem nests_append (s t : List Char) : nests (s ++ ')' :: t) = nests s := by
  have hmarks : ∀ mark ∈ ["[", "&&", "--", "~~"], ')' ∉ mark.toList := by decide
  rw [Bool.eq_iff_iff, nests, nests, List.any_eq_true, List.any_eq_true]
  refine exists_congr fun mark => and_congr_right fun hmark => ?_
  rw [isSome_afterPrefix?_iff, isSome_afterPrefix?_iff, prefix_append_cons_iff (hmarks mark hmark)]

theorem items?_append {n m : Nat} {found items : List ClassItem}
    (h : items? n found s = some (items, r)) (hm : n ≤ m) (t : List Char) :
    items? m found (s ++ ')' :: t) = some (items, r ++ ')' :: t) := by
  induction n generalizing m found s with
  | zero => cases h
  | succ n ih =>
    obtain ⟨m, rfl⟩ : ∃ k, m = k + 1 := ⟨m - 1, by omega⟩
    have hs : s ≠ [] := by
      rintro rfl
      cases h
    rw [items?] at h ⊢
    rw [List.head?_append_of_ne_nil _ hs, nests_append]
    split at h
    · rename_i hclose
      cases h
      rw [if_pos hclose, List.tail_append_of_ne_nil hs]
    · rename_i hclose
      split at h
      · cases h
      · rename_i hnests
        obtain ⟨⟨member, r'⟩, hmember, hrest⟩ := Option.bind_eq_some_iff.1 h
        rw [if_neg hclose, if_neg hnests, member?_append hmember]
        exact ih hrest (Nat.le_of_succ_le_succ hm)

theorem members?_append {items : List ClassItem} (h : members? s = some (items, r))
    (t : List Char) : members? (s ++ ')' :: t) = some (items, r ++ ')' :: t) := by
  obtain ⟨htake, hdrop⟩ := takeWhile_append_cons (p := (· = '-')) (c := ')') (by decide) s t
  have hrest : s.dropWhile (· = '-') ≠ [] := by
    intro hnil
    simp [members?, hnil, items?, member?, item?, nests] at h
  rw [members?] at h ⊢
  simp only [htake, hdrop, List.head?_append_of_ne_nil _ hrest] at h ⊢
  split at h
  · rename_i hclose
    rw [if_pos hclose, List.tail_append_of_ne_nil hrest]
    exact items?_append h (by simp) t
  · rename_i hclose
    rw [if_neg hclose]
    exact items?_append h (by simp) t

/-- A class that ends before a closing parenthesis is read whatever stands behind it. -/
theorem class?_append {k : CharClass} (h : class? s = some (k, r)) (t : List Char) :
    class? (s ++ ')' :: t) = some (k, r ++ ')' :: t) := by
  unfold class? at h
  split at h
  · obtain ⟨⟨items, r⟩, hmembers, heq⟩ := Option.map_eq_some_iff.1 h
    cases heq
    rw [List.cons_append, class?, members?_append hmembers, Option.map_some]
  · rename_i hplain
    obtain ⟨⟨items, r⟩, hmembers, heq⟩ := Option.map_eq_some_iff.1 h
    cases heq
    rw [class?, members?_append hmembers, Option.map_some]
    intro r' hr'
    cases s with
    | nil => cases hr'
    | cons c s => exact hplain s (by simp_all)

theorem atom?_append {k : CharClass} {depth : Nat} (h : atom? s = some (depth, k, r))
    (t : List Char) : atom? (s ++ ')' :: t) = some (depth, k, r ++ ')' :: t) := by
  unfold atom? at h
  split at h
  · cases h
  · rename_i s
    obtain ⟨⟨k, r⟩, hclass, heq⟩ := Option.map_eq_some_iff.1 h
    cases heq
    rw [List.cons_append, atom?, class?_append hclass, Option.map_some]
  · cases h
    rfl
  · rename_i c s hclass hany
    split at h
    · cases h
    · rename_i hmark
      obtain ⟨⟨item, r⟩, hitem, heq⟩ := Option.map_eq_some_iff.1 h
      cases heq
      rw [List.cons_append, atom?, if_neg hmark, ← List.cons_append, item?_append hitem,
        Option.map_some]
      · exact hclass
      · exact hany

theorem number?_append {n : Nat} (h : number? s = some (n, r)) (t : List Char) :
    number? (s ++ ')' :: t) = some (n, r ++ ')' :: t) := by
  have hwhite : isWhite ')' = false := by decide
  have hdigit : Char.isDigit ')' = false := by decide
  unfold number? at h ⊢
  simp only [(takeWhile_append_cons hwhite _ t).2, (takeWhile_append_cons hdigit _ t).1,
    (takeWhile_append_cons hdigit _ t).2] at h ⊢
  split at h
  · cases h
  · rename_i hnumber
    cases h
    rw [if_neg hnumber]

theorem most?_append {least : Nat} {most : Option Nat} (h : most? least s = some (most, r))
    (t : List Char) : most? least (s ++ ')' :: t) = some (most, r ++ ')' :: t) := by
  unfold most? at h
  split at h
  · cases h
    rfl
  · rename_i hbrace
    split at h
    · rename_i most' r' hnumber
      split at h
      · rename_i hle
        cases h
        have hread := number?_append hnumber t
        rw [List.cons_append] at hread
        rw [most?]
        · simp only [hread]
          rw [if_pos hle]
        · intro r'' hr
          cases s with
          | nil => cases hr
          | cons c s => exact hbrace s (by rw [(List.cons.inj hr).1])
      · cases h
    · cases h

theorem bounds?_append {least : Nat} {most : Option Nat} (h : bounds? s = some (least, most, r))
    (t : List Char) : bounds? (s ++ ')' :: t) = some (least, most, r ++ ')' :: t) := by
  unfold bounds? at h
  split at h
  · rename_i hnumber
    cases h
    simp [bounds?, number?_append hnumber]
  · rename_i hnumber
    obtain ⟨⟨most, r⟩, hmost, heq⟩ := Option.map_eq_some_iff.1 h
    cases heq
    simp [bounds?, number?_append hnumber, most?_append hmost]
  · cases h

theorem mark?_append {bounds : Option (Nat × Option Nat × List Char)} (h : mark? s = some bounds)
    (t : List Char) : mark? (s ++ ')' :: t) =
      some (bounds.map fun (least, most, r) => (least, most, r ++ ')' :: t)) := by
  unfold mark? at h
  split at h
  · cases h
    rfl
  · cases h
    rfl
  · cases h
    rfl
  · obtain ⟨⟨least, most, r⟩, hbounds, rfl⟩ := Option.map_eq_some_iff.1 h
    simp [mark?, bounds?_append hbounds]
  · rename_i hmany hsome hone hbounds
    cases h
    cases s with
    | nil => rfl
    | cons c s =>
      rw [List.cons_append, mark?]
      · rfl
      all_goals
        rintro r' ⟨⟩
        first
          | exact hmany _ rfl
          | exact hsome _ rfl
          | exact hone _ rfl
          | exact hbounds _ rfl

theorem repeated?_append {n m depth depth' : Nat} {part part' : PatternPart}
    (h : repeated? n depth part s = some (depth', part', r)) (hm : n ≤ m) (t : List Char) :
    repeated? m depth part (s ++ ')' :: t) = some (depth', part', r ++ ')' :: t) := by
  induction n generalizing m depth part s with
  | zero => cases h
  | succ n ih =>
    obtain ⟨m, rfl⟩ : ∃ k, m = k + 1 := ⟨m - 1, by omega⟩
    rw [repeated?] at h ⊢
    split at h
    · cases h
    · rename_i hmark
      cases h
      simp [mark?_append hmark]
    · rename_i least most r' hmark
      have hlazy : (r' ++ ')' :: t).head? = some '?' ↔ r'.head? = some '?' := by
        cases r' <;> simp
      simp only [mark?_append hmark, Option.map_some, hlazy]
      split at h
      · rename_i hhead
        have hne : r' ≠ [] := by
          rintro rfl
          cases hhead
        rw [if_pos hhead, List.tail_append_of_ne_nil hne]
        exact ih h (Nat.le_of_succ_le_succ hm)
      · rename_i hhead
        rw [if_neg hhead]
        exact ih h (Nat.le_of_succ_le_succ hm)

theorem parts?_of_atEnd (hs : atEnd s = true) (n : Nat) : parts? n s = some ([], s) := by
  cases n <;> rw [parts?, if_pos hs]

/-- A pattern that goes up to the end of a text is read the same if a closing parenthesis
    follows. -/
theorem parts?_append {n m : Nat} {parts : List (Nat × PatternPart)}
    (h : parts? n s = some (parts, [])) (hm : n ≤ m) (t : List Char) :
    parts? m (s ++ ')' :: t) = some (parts, ')' :: t) := by
  induction n generalizing m s parts with
  | zero =>
    rw [parts?] at h
    split at h
    · cases h
      exact parts?_of_atEnd rfl m
    · cases h
  | succ n ih =>
    obtain ⟨m, rfl⟩ : ∃ k, m = k + 1 := ⟨m - 1, by omega⟩
    rw [parts?] at h
    split at h
    · cases h
      exact parts?_of_atEnd rfl _
    · rename_i hend
      simp only [Option.bind_eq_bind, Option.bind_eq_some_iff, Prod.exists] at h
      obtain ⟨depth, chars, r, hatom, depth', part, r', hpart, rest, r'', hrest, heq⟩ := h
      cases heq
      have hend' : ¬ atEnd (s ++ ')' :: t) = true := by
        cases s with
        | nil => exact absurd rfl hend
        | cons c s => exact hend
      have hpart' := repeated?_append hpart (m := (r ++ ')' :: t).length + 1) (by simp) t
      rw [parts?, if_neg hend', atom?_append hatom]
      simp only [Option.bind_eq_bind, Option.bind_some, hpart',
        ih hrest (Nat.le_of_succ_le_succ hm)]

/-- A literal is read as it is spelled, up to a group or the end. -/
theorem literal_spelled (text : List Char) {r : List Char} (hr : r = [] ∨ ∃ s, r = '(' :: s) :
    literal (spelled text ++ r) = (text, r) := by
  induction text with
  | nil => rcases hr with rfl | ⟨s, rfl⟩ <;> rfl
  | cons c text ih =>
    rw [spelled, List.flatMap_cons, ← spelled]
    cases hc : isMark c with
    | false =>
      have hplain : c ≠ '\\' := by
        rintro rfl
        cases hc
      rw [if_neg Bool.false_ne_true, List.singleton_append, List.cons_append, literal, hc, ih]
      · rfl
      · exact fun _ _ h => absurd h hplain
    | true => simp [literal, hc, ih]

/-- A group between two literals is read with what its text spells. -/
theorem framed?_spelled {before group after : List Char} {parts : List (Nat × PatternPart)}
    (h : parts? group.length group = some (parts, [])) :
    framed? ('^' :: (spelled before ++ '(' :: (group ++ ')' :: spelled after))) =
      some (before, parts, after) := by
  have hgroup : parts? (group ++ ')' :: spelled after).length (group ++ ')' :: spelled after) =
      some (parts, ')' :: spelled after) := parts?_append h (by simp) _
  have hafter : literal (spelled after) = (after, []) := by
    simpa using literal_spelled after (.inl rfl)
  simp only [framed?, afterPrefix?, if_true, Option.bind_eq_bind, Option.bind_some,
    literal_spelled before (.inr ⟨_, rfl⟩), hgroup, hafter]

end PatternReader

/-- An expression behind a text finds what its pattern takes there. -/
theorem Pattern.finds_between (before : List Char) (p : Pattern) (after : List Char) :
    (p.between before after).Finds before p after := by
  intro s
  cases hmatch : p.matchBefore? after s <;> simp [between, hmatch]

theorem toList_opener (before group after : String) :
    ("^" ++ RegexLibrary.escape before ++ "(" ++ group ++ ")" ++ RegexLibrary.escape after).toList =
      '^' :: (PatternReader.spelled before.toList ++ '(' ::
        (group.toList ++ ')' :: PatternReader.spelled after.toList)) := by
  simp [RegexLibrary.escape]

instance : LawfulRegexLibrary where
  finds {before group after p opener} hgroup hopener := by
    unfold Pattern.ofText? at hgroup
    split at hgroup
    · rename_i parts hparts
      cases hgroup
      rw [← String.length_toList] at hparts
      simp only [RegexLibrary.compile?, compile?, toList_opener,
        PatternReader.framed?_spelled hparts, Option.bind_eq_bind, Option.bind_some,
        Option.ite_none_right_eq_some, Option.some.injEq] at hopener
      rw [← hopener.2]
      exact Pattern.finds_between _ _ _
    · cases hgroup

end LiterateSync.Text
