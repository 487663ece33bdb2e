import LiterateSync.Proofs.Segment.Markup

namespace LiterateSync.Grammar

variable {g : Grammar} {contexts cs : List Context} {before s : List Char} {m : Move}

theorem tokenMove_cases {c : Char} {plain : Move}
    (h : g.tokenMove contexts c s plain = .ok m) :
    g.token? (c :: s) = .ok none ∧ m = plain ∨
      ∃ token : Token, g.token? (c :: s) = .ok (some token) ∧ token.text.isEmpty = false ∧
        m = ⟨token.text, token.rest, some (token.enter contexts)⟩ := by
  unfold tokenMove at h
  split at h
  · cases h
  · rename_i htoken
    exact .inl ⟨htoken, (Except.ok.inj h).symm⟩
  · rename_i token htoken
    split at h
    · cases h
    · rename_i hempty
      exact .inr ⟨token, htoken, by simpa using hempty, (Except.ok.inj h).symm⟩

theorem mem_strings_of_token? {token : Token} {q : StringSyntax}
    (h : g.token? s = .ok (some token)) (hq : token.literal = some q) : q ∈ g.strings := by
  unfold token? at h
  split at h
  · rename_i b _
    cases hcut : cutBlockComment b s <;> simp [hcut, Except.map] at h
    subst h
    cases hq
  · split at h
    · cases h
      cases hq
    · split at h
      · cases h
        cases hq
      · obtain ⟨q', hq', rfl⟩ := Option.map_eq_some_iff.1 (Except.ok.inj h)
        cases hq
        exact List.mem_of_find?_eq_some hq'

/-- Only a block comment that is not closed is no token where a token begins. -/
theorem exists_of_token?_eq_error {fault : ScanFault} (h : g.token? s = .error fault) :
    ∃ b body, g.blockComment? s = some b ∧ s = b.opening.toList ++ body ∧
      Text.splitFirst? b.closing.toList body = none ∧ fault = .unclosed s b := by
  unfold token? at h
  split at h
  · rename_i b hb
    obtain ⟨body, rfl⟩ := prefix_of_blockComment? hb
    cases hcut : cutBlockComment b (b.opening.toList ++ body) with
    | error fault' =>
      rw [hcut] at h
      cases h
      obtain ⟨hfault, hnone⟩ := cutBlockComment_eq_error hcut
      exact ⟨b, body, hb, rfl, hnone, hfault⟩
    | ok found => simp [hcut, Except.map] at h
  · split at h
    · cases h
    · split at h <;> cases h

/-- Whether the scan may come into a context: only the literals of the grammar lead into others,
    and only those with interpolated code into that. -/
def Admits (g : Grammar) : Context → Prop
  | .string q => q ∈ g.strings
  | .interpolation _ => ∃ q ∈ g.strings, q.template = true

theorem admits_enter {token : Token} (h : ∀ x ∈ contexts, g.Admits x)
    (htoken : g.token? s = .ok (some token)) : ∀ x ∈ token.enter contexts, g.Admits x := by
  rw [Token.enter]
  split
  · exact h
  · rename_i q hq
    exact List.forall_mem_cons.2 ⟨mem_strings_of_token? htoken hq, h⟩

theorem admits_stringMove {q : StringSyntax} {outer : List Context} {c : Char}
    (h : ∀ x ∈ .string q :: outer, g.Admits x) (hcs : (stringMove q outer c s).contexts = some cs) :
    ∀ x ∈ cs, g.Admits x := by
  obtain ⟨hq, houter⟩ := List.forall_mem_cons.1 h
  unfold stringMove at hcs
  split at hcs
  · cases hcs
    exact houter
  · split at hcs
    · cases hcs
      exact h
    · split at hcs
      · rename_i hopens
        cases hcs
        simp only [Bool.and_eq_true] at hopens
        exact List.forall_mem_cons.2 ⟨⟨q, hq, hopens.1⟩, h⟩
      · split at hcs <;> cases hcs
        · exact houter
        · exact h

theorem admits_braced {n : Nat} {outer : List Context}
    (h : ∀ x ∈ .interpolation n :: outer, g.Admits x) (c : Char) :
    ∀ x ∈ braced c n outer, g.Admits x := by
  obtain ⟨htemplate, houter⟩ := List.forall_mem_cons.1 h
  unfold braced
  split
  · exact List.forall_mem_cons.2 ⟨htemplate, houter⟩
  · exact houter
  · exact List.forall_mem_cons.2 ⟨htemplate, houter⟩
  · exact h

/-- A move leads into contexts that the grammar admits. -/
theorem admits_move (h : ∀ x ∈ contexts, g.Admits x) (hmove : g.move contexts s = .ok m)
    (hcs : m.contexts = some cs) : ∀ x ∈ cs, g.Admits x := by
  unfold move at hmove
  split at hmove
  · cases hmove
    cases hcs
  · split at hmove
    · cases hmove
      cases hcs
    · obtain ⟨-, rfl⟩ | ⟨token, htoken, -, rfl⟩ := tokenMove_cases hmove
      · cases hcs
        exact h
      · cases hcs
        exact admits_enter h htoken
  · cases hmove
    exact admits_stringMove h hcs
  · obtain ⟨-, rfl⟩ | ⟨token, htoken, -, rfl⟩ := tokenMove_cases hmove
    · cases hcs
      exact admits_braced h _
    · cases hcs
      exact admits_enter h htoken

theorem cutCodeLine_of_move (h : g.move contexts s = .ok m)
    (hcs : m.contexts = some cs) :
    g.cutCodeLine contexts before s = g.cutCodeLine cs (m.taken.reverseAux before) m.rest := by
  rw [cutCodeLine]
  split
  · rename_i fault hfault
    rw [h] at hfault
    cases hfault
  · rename_i m' hm'
    obtain rfl : m = m' := by simpa [h] using hm'
    split
    · rename_i hnone
      rw [hcs] at hnone
      cases hnone
    · rename_i cs' hcs'
      obtain rfl : cs = cs' := by simpa [hcs] using hcs'
      rfl

theorem cutCodeLine_of_move_error {fault : ScanFault} (h : g.move contexts s = .error fault) :
    g.cutCodeLine contexts before s = .error fault := by
  rw [cutCodeLine]
  split
  · rename_i fault' hfault
    exact congrArg _ (Except.error.inj (hfault.symm.trans h))
  · rename_i m hm
    rw [h] at hm
    cases hm

theorem cutCodeLine_of_move_end (h : g.move contexts s = .ok m) (hend : m.contexts = none) :
    g.cutCodeLine contexts before s = .ok ((m.taken.reverseAux before).reverse, m.rest) := by
  rw [cutCodeLine]
  split
  · rename_i fault hfault
    rw [h] at hfault
    cases hfault
  · rename_i m' hm'
    obtain rfl : m = m' := by simpa [h] using hm'
    split
    · rfl
    · rename_i cs hcs
      rw [hend] at hcs
      cases hcs

/-- Outside all contexts a line of code ends at the end of the text. -/
theorem cutCodeLine_empty (g : Grammar) (before : List Char) :
    g.cutCodeLine [] before [] = .ok (before.reverse, []) := by
  have hmove : g.move [] [] = .ok ⟨[], [], none⟩ := rfl
  rw [cutCodeLine_of_move_end hmove rfl]
  rfl

/-- Outside all contexts a line of code ends behind a line feed. -/
theorem cutCodeLine_line_feed (g : Grammar) (before s : List Char) :
    g.cutCodeLine [] before ('\n' :: s) = .ok (before.reverse ++ ['\n'], s) := by
  have hmove : g.move [] ('\n' :: s) = .ok ⟨['\n'], s, none⟩ := rfl
  rw [cutCodeLine_of_move_end hmove rfl]
  simp

/-- The scan of a line of code stops only where a token cannot be cut, or takes no character. -/
theorem exists_of_cutCodeLine_eq_error {fault : ScanFault}
    (h : g.cutCodeLine contexts before s = .error fault) :
    ∃ t, t <:+ s ∧ (g.token? t = .error fault ∨ fault = .stalled t) := by
  fun_induction cutCodeLine g contexts before s with
  | case1 contexts before s fault' hmove =>
    cases h
    refine ⟨s, List.suffix_refl s, ?_⟩
    have htoken : ∀ {contexts c s plain}, g.tokenMove contexts c s plain = .error fault →
        g.token? (c :: s) = .error fault ∨ fault = .stalled (c :: s) := by
      intro contexts c s plain htoken
      unfold tokenMove at htoken
      split at htoken
      · rename_i hfault
        cases htoken
        exact .inl hfault
      · cases htoken
      · split at htoken <;> cases htoken
        exact .inr rfl
    unfold move at hmove
    split at hmove
    · cases hmove
    · split at hmove
      · cases hmove
      · exact htoken hmove
    · cases hmove
    · exact htoken hmove
  | case2 => cases h
  | case3 contexts before s m hmove cs hcs ih =>
    obtain ⟨t, hsuffix, ht⟩ := ih h
    exact ⟨t, hsuffix.trans ⟨m.taken, append_of_move hmove⟩, ht⟩

end LiterateSync.Grammar
