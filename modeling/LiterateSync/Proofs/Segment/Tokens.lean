import LiterateSync.Proofs.Language.Openings
import LiterateSync.Proofs.Segment.Locality

namespace LiterateSync

namespace Grammar

variable {g : Grammar} {contexts cs : List Context} {text rest s : List Char} {m : Move}

/-- The text until all contexts are left, and the text after it. A context that is not closed runs
    to the end of the text. -/
def cutContexts (g : Grammar) (contexts : List Context) (s : List Char) :
    Except ScanFault (List Char × List Char) :=
  if contexts = [] then .ok ([], s)
  else
    match _ : g.move contexts s with
    | .error fault => .error fault
    | .ok m =>
      match _ : m.contexts with
      | none => .ok (m.taken, m.rest)
      | some cs => (cutContexts g cs m.rest).map fun (text, rest) => (m.taken ++ text, rest)
termination_by 2 * s.length + contexts.length
decreasing_by exact move_contexts (by assumption) (by assumption)

/-- The comment, heredoc or string literal at the start of the text, if one begins there, and the
    text after it. -/
def skip? (g : Grammar) (s : List Char) : Except ScanFault (Option (List Char × List Char)) :=
  match g.token? s with
  | .error fault => .error fault
  | .ok none => .ok none
  | .ok (some token) =>
    (g.cutContexts (token.enter []) token.rest).map fun (text, rest) => (token.text ++ text, rest)

theorem cutContexts_nil (g : Grammar) (s : List Char) : g.cutContexts [] s = .ok ([], s) := by
  rw [cutContexts, if_pos rfl]

theorem cutContexts_of_move_error {fault : ScanFault} (hne : contexts ≠ [])
    (h : g.move contexts s = .error fault) : g.cutContexts contexts s = .error fault := by
  rw [cutContexts, if_neg hne]
  split
  · rename_i fault' hfault
    exact congrArg _ (Except.error.inj (hfault.symm.trans h))
  · rename_i m hm
    rw [h] at hm
    cases hm

theorem cutContexts_of_move (hne : contexts ≠ []) (h : g.move contexts s = .ok m) :
    g.cutContexts contexts s =
      match m.contexts with
      | none => .ok (m.taken, m.rest)
      | some cs => (g.cutContexts cs m.rest).map fun (text, rest) => (m.taken ++ text, rest) := by
  rw [cutContexts, if_neg hne]
  split
  · rename_i fault hfault
    rw [h] at hfault
    cases hfault
  · rename_i m' hm'
    obtain rfl : m = m' := by simpa [h] using hm'
    split
    · rename_i hend
      rw [hend]
    · rename_i cs hcs
      rw [hcs]

theorem cutContexts_empty (g : Grammar) (contexts : List Context) :
    g.cutContexts contexts [] = .ok ([], []) := by
  by_cases hne : contexts = []
  · rw [hne, cutContexts_nil]
  · have hstop : g.move contexts [] = .ok ⟨[], [], none⟩ := by
      cases contexts <;> rfl
    rw [cutContexts_of_move hne hstop]

theorem append_of_cutContexts (h : g.cutContexts contexts s = .ok (text, rest)) :
    text ++ rest = s := by
  fun_induction cutContexts g contexts s generalizing text with
  | case1 s =>
    cases h
    rfl
  | case2 => cases h
  | case3 contexts s _ m hmove hend =>
    cases h
    exact append_of_move hmove
  | case4 contexts s _ m hmove cs _ ih =>
    cases hmore : g.cutContexts cs m.rest with
    | error fault => simp [hmore, Except.map] at h
    | ok found =>
      rw [hmore] at h
      cases h
      rw [List.append_assoc, ih hmore, append_of_move hmove]

/-- Behind the contexts that a line of code comes into, it goes on outside all contexts. -/
theorem cutCodeLine_eq_cutContexts (g : Grammar) (contexts : List Context)
    (before s : List Char) :
    g.cutCodeLine contexts before s =
      (g.cutContexts contexts s).bind fun (text, rest) =>
        g.cutCodeLine [] (text.reverseAux before) rest := by
  fun_induction cutContexts g contexts s generalizing before with
  | case1 s => rfl
  | case2 contexts s _ fault hmove => rw [cutCodeLine_of_move_error hmove, Except.bind]
  | case3 contexts s hne m hmove hend =>
    obtain hnil | ⟨hcontexts, -⟩ := move_ends hmove hend
    · rw [cutCodeLine_of_move_end hmove hend, Except.bind, hnil]
      exact (g.cutCodeLine_empty _).symm
    · exact absurd hcontexts hne
  | case4 contexts s _ m hmove cs hcs ih =>
    rw [cutCodeLine_of_move hmove hcs, ih]
    cases g.cutContexts cs m.rest with
    | error fault => rfl
    | ok found => simp [Except.map, Except.bind, List.reverseAux_eq]

theorem stringMove_append (q : StringSyntax) (inner outer : List Context) (c : Char)
    (s : List Char) :
    stringMove q (inner ++ outer) c s =
      { stringMove q inner c s with
        contexts := (stringMove q inner c s).contexts.map (· ++ outer) } := by
  unfold stringMove
  split
  · rfl
  · split
    · rfl
    · split
      · rfl
      · split <;> rfl

theorem braced_append (c : Char) (n : Nat) (inner outer : List Context) :
    braced c n (inner ++ outer) = braced c n inner ++ outer := by
  unfold braced
  split <;> rfl

/-- A move within contexts does not depend on those around them. -/
theorem move_append (hne : contexts ≠ []) (outer : List Context) :
    g.move (contexts ++ outer) s =
      (g.move contexts s).map fun m => { m with contexts := m.contexts.map (· ++ outer) } := by
  obtain ⟨context, inner, rfl⟩ := List.exists_cons_of_ne_nil hne
  cases s with
  | nil => rfl
  | cons c s =>
    cases context with
    | string q => simp only [List.cons_append, move, stringMove_append, Except.map]
    | interpolation n =>
      simp only [List.cons_append, move, tokenMove, braced_append]
      cases g.token? (c :: s) with
      | error fault => rfl
      | ok found =>
        cases found with
        | none => rfl
        | some token =>
          simp only [Token.enter]
          split
          · rfl
          · split <;> rfl

/-- Where some contexts are left does not depend on those around them. -/
theorem cutContexts_append (g : Grammar) (contexts outer : List Context) (s : List Char) :
    g.cutContexts (contexts ++ outer) s =
      (g.cutContexts contexts s).bind fun (text, rest) =>
        (g.cutContexts outer rest).map fun (more, rest) => (text ++ more, rest) := by
  fun_induction cutContexts g contexts s with
  | case1 s => cases h : g.cutContexts outer s <;> simp [h, Except.map, Except.bind]
  | case2 contexts s hne fault hmove =>
    have houter : contexts ++ outer ≠ [] := by simp [hne]
    rw [cutContexts_of_move_error houter (by rw [move_append hne, hmove, Except.map]), Except.bind]
  | case3 contexts s hne m hmove hend =>
    have houter : contexts ++ outer ≠ [] := by simp [hne]
    have hnil := (move_ends hmove hend).resolve_right fun h => hne h.1
    rw [cutContexts_of_move houter (by rw [move_append hne, hmove, Except.map])]
    simp [hend, hnil, Except.bind, cutContexts_empty, Except.map]
  | case4 contexts s hne m hmove cs hcs ih =>
    have houter : contexts ++ outer ≠ [] := by simp [hne]
    rw [cutContexts_of_move houter (by rw [move_append hne, hmove, Except.map])]
    simp only [hcs, Option.map_some, ih]
    cases g.cutContexts cs m.rest with
    | error fault => rfl
    | ok found =>
      simp only [Except.map, Except.bind]
      cases g.cutContexts outer found.2 <;> simp

/-- Whether no delimiter at which a comment or a literal opens is empty. -/
def OpensVisibly (g : Grammar) : Prop :=
  ∀ d ∈ g.openings, d ≠ ""

/-- Whether a line comment opens at the start of a text and ends there: its delimiter begins with
    the line feed that ends it. -/
def CommentsNothing (g : Grammar) (s : List Char) : Prop :=
  ∃ d ∈ g.lineComments, '\n' ∈ d.toList.head? ∧ d.toList <+: s

/-- Whether a heredoc opens at the start of a text and ends there: its expression matches without a
    character, and its terminator has none. -/
def QuotesNothing (g : Grammar) (s : List Char) : Prop :=
  ∃ h ∈ g.heredocs, h.1.startPrefix.toList <+: s ∧ ∃ found ∈ h.2.captures? s,
    found.stop = 0 ∧ h.1.terminator (found.group.getD []) = []

theorem QuotesNothing.cutHeredoc?_ne_none (h : g.QuotesNothing s) : g.cutHeredoc? s ≠ none := by
  obtain ⟨heredoc, hmem, hopens, found, hfound, -⟩ := h
  intro hnone
  have hcut := List.findSome?_eq_none_iff.1 hnone heredoc hmem
  rw [cutHeredocOf?, if_pos (opens_iff.2 hopens), Option.mem_def.1 hfound] at hcut
  cases hcut

theorem eq_nil_of_closeHeredoc {h : Heredoc} {found : Regex.Captures} (hs : s ≠ [])
    (hclose : (closeHeredoc h found s).1 = []) :
    found.stop = 0 ∧ h.terminator (found.group.getD []) = [] := by
  unfold closeHeredoc at hclose
  simp only at hclose
  split at hclose
  · exact absurd hclose hs
  · rw [List.append_eq_nil_iff, List.append_eq_nil_iff, List.take_eq_nil_iff] at hclose
    exact ⟨hclose.1.1.resolve_right hs, hclose.2⟩

theorem quotesNothing_of_cutHeredoc? (hs : s ≠ []) (h : g.cutHeredoc? s = some ([], rest)) :
    g.QuotesNothing s := by
  obtain ⟨heredoc, hmem, hcut⟩ := List.exists_of_findSome?_eq_some h
  obtain ⟨hopens, hfound⟩ := Option.ite_none_right_eq_some.1 hcut
  obtain ⟨found, hcaptures, hclose⟩ := Option.map_eq_some_iff.1 hfound
  exact ⟨heredoc, hmem, opens_iff.1 hopens, found, hcaptures,
    eq_nil_of_closeHeredoc hs (by rw [hclose])⟩

theorem commentsNothing_of_cutLineComment {d : String} (hd : d ∈ g.lineComments) (hne : d ≠ "")
    (hopens : d.toList <+: s) (h : (g.cutLineComment [] s).1 = []) : g.CommentsNothing s := by
  obtain ⟨e, more, hmore⟩ := List.exists_cons_of_ne_nil fun hempty =>
    hne (String.toList_eq_nil_iff.1 hempty)
  refine ⟨d, hd, ?_, hopens⟩
  obtain ⟨c, s, rfl⟩ : ∃ c t, s = c :: t := by
    rw [hmore] at hopens
    exact List.exists_cons_of_ne_nil fun hnil => by simp [hnil] at hopens
  rw [cutLineComment] at h
  split at h
  · rename_i hfeed
    simp only [Bool.and_eq_true, decide_eq_true_eq] at hfeed
    rw [hmore, List.cons_prefix_cons] at hopens
    rw [hmore, List.head?_cons, hopens.1, hfeed.1]
    rfl
  · obtain ⟨text, htext⟩ := exists_append_cutLineComment g [c] s
    rw [htext] at h
    cases h

/-- A token takes no character only if it is a line comment whose delimiter begins with the line
    feed that ends the comment, or a heredoc whose opening and whose terminator are empty. -/
theorem OpensVisibly.of_text_eq_nil (hg : g.OpensVisibly) {token : Token}
    (h : g.token? s = .ok (some token)) (htext : token.text = []) :
    token.rest = s ∧ token.literal = none ∧ (g.CommentsNothing s ∨ g.QuotesNothing s) := by
  obtain ⟨hlines, hblocks, hheredocs, hstrings⟩ := forall_mem_openings.1 hg
  have hnil : ∀ {d : String}, d.toList = [] → d = "" := String.toList_eq_nil_iff.1
  have happend := append_of_token? h
  rw [htext, List.nil_append] at happend
  refine ⟨happend, ?_⟩
  unfold token? at h
  split at h
  · rename_i b hb
    cases hcut : cutBlockComment b s with
    | error fault => simp [hcut, Except.map] at h
    | ok found =>
      obtain ⟨text, rest⟩ := found
      simp only [hcut, Except.map, Except.ok.injEq, Option.some.injEq] at h
      subst h
      obtain ⟨body, inside, -, -, rfl⟩ :=
        exists_of_cutBlockComment (prefix_of_blockComment? hb) hcut
      simp only [List.append_eq_nil_iff] at htext
      exact absurd (hnil htext.1.1) (hblocks b (List.mem_of_find?_eq_some hb))
  · split at h
    · rename_i hline
      obtain ⟨d, hd⟩ := Option.isSome_iff_exists.1 hline
      have hmem := List.mem_of_find?_eq_some hd
      cases h
      exact ⟨rfl, .inl (commentsNothing_of_cutLineComment hmem (hlines d hmem)
        (prefix_of_lineComment? hd) htext)⟩
    · split at h
      · rename_i text rest hcut
        cases h
        subst htext
        refine ⟨rfl, .inr (quotesNothing_of_cutHeredoc? ?_ hcut)⟩
        rintro rfl
        obtain ⟨heredoc, hmem, hcut⟩ := List.exists_of_findSome?_eq_some hcut
        have hopens := opens_iff.1 (Option.ite_none_right_eq_some.1 hcut).1
        exact hheredocs heredoc hmem (hnil (List.prefix_nil.1 hopens))
      · obtain ⟨q, hq, rfl⟩ := Option.map_eq_some_iff.1 (Except.ok.inj h)
        have hopens := opens_iff.1
          (List.find?_some (p := fun q : StringSyntax => opens q.delimiter s) hq)
        obtain ⟨rest, rfl⟩ := hopens
        rw [← String.length_toList, List.take_left] at htext
        exact absurd (hnil htext) (hstrings q (List.mem_of_find?_eq_some hq))

theorem tokenMove_of_token? {token : Token} {c : Char} {plain : Move}
    (h : g.token? (c :: s) = .ok (some token)) (htext : token.text ≠ []) :
    g.tokenMove contexts c s plain = .ok ⟨token.text, token.rest, some (token.enter contexts)⟩ := by
  simp [tokenMove, h, htext]

theorem tokenMove_of_text_eq_nil {token : Token} {c : Char} {plain : Move}
    (h : g.token? (c :: s) = .ok (some token)) (htext : token.text = []) :
    g.tokenMove contexts c s plain = .error (.stalled (c :: s)) := by
  simp [tokenMove, h, htext]

theorem Token.enter_eq_append (contexts : List Context) (token : Token) :
    token.enter contexts = token.enter [] ++ contexts := by
  rw [Token.enter, Token.enter]
  split <;> rfl

theorem OpensVisibly.skip?_of_text_eq_nil (hg : g.OpensVisibly) {token : Token}
    (h : g.token? s = .ok (some token)) (htext : token.text = []) :
    g.skip? s = .ok (some ([], s)) := by
  obtain ⟨hrest, hliteral, -⟩ := hg.of_text_eq_nil h htext
  simp [skip?, h, Token.enter, hliteral, hrest, htext, cutContexts_nil, Except.map]

/-- A line of code is taken token by token, and character by character where no token begins. -/
theorem OpensVisibly.cutCodeLine_cons (hg : g.OpensVisibly) {c : Char} (hc : c ≠ '\n')
    (before s : List Char) :
    g.cutCodeLine [] before (c :: s) =
      (g.skip? (c :: s)).bind fun
        | none => g.cutCodeLine [] (c :: before) s
        | some (text, rest) =>
          if text = [] then .error (.stalled (c :: s))
          else g.cutCodeLine [] (text.reverseAux before) rest := by
  have hmove : g.move [] (c :: s) = g.tokenMove [] c s ⟨[c], s, some []⟩ := if_neg hc
  cases htoken : g.token? (c :: s) with
  | error fault =>
    rw [cutCodeLine_of_move_error (by rw [hmove, tokenMove, htoken]), skip?, htoken]
    rfl
  | ok found =>
    cases found with
    | none =>
      rw [cutCodeLine_of_move (by rw [hmove, tokenMove, htoken]) rfl, skip?, htoken]
      rfl
    | some token =>
      by_cases htext : token.text = []
      · rw [cutCodeLine_of_move_error (hmove.trans (tokenMove_of_text_eq_nil htoken htext)),
          hg.skip?_of_text_eq_nil htoken htext]
        rfl
      · rw [cutCodeLine_of_move (hmove.trans (tokenMove_of_token? htoken htext)) rfl,
          cutCodeLine_eq_cutContexts, skip?, htoken]
        simp only
        cases g.cutContexts (token.enter []) token.rest with
        | error fault => rfl
        | ok found => simp [Except.map, Except.bind, htext, List.reverseAux_eq]

/-- Interpolated code is taken token by token as well, and by the same tokens. Where no token
    begins, a brace may lead out of it. -/
theorem OpensVisibly.cutContexts_interpolation (hg : g.OpensVisibly) (n : Nat)
    (outer : List Context) (c : Char) (s : List Char) :
    g.cutContexts (.interpolation n :: outer) (c :: s) =
      (g.skip? (c :: s)).bind fun
        | none => (g.cutContexts (braced c n outer) s).map fun (text, rest) => (c :: text, rest)
        | some (text, rest) =>
          if text = [] then .error (.stalled (c :: s))
          else (g.cutContexts (.interpolation n :: outer) rest).map fun (more, rest) =>
            (text ++ more, rest) := by
  have hne := List.cons_ne_nil (Context.interpolation n) outer
  cases htoken : g.token? (c :: s) with
  | error fault =>
    rw [cutContexts_of_move_error hne (by rw [move, tokenMove, htoken]), skip?, htoken]
    rfl
  | ok found =>
    cases found with
    | none =>
      rw [cutContexts_of_move hne (by rw [move, tokenMove, htoken]), skip?, htoken]
      rfl
    | some token =>
      by_cases htext : token.text = []
      · rw [cutContexts_of_move_error hne (by rw [move, tokenMove_of_text_eq_nil htoken htext]),
          hg.skip?_of_text_eq_nil htoken htext]
        rfl
      · rw [cutContexts_of_move hne (by rw [move, tokenMove_of_token? htoken htext]), skip?, htoken]
        simp only [Token.enter_eq_append (.interpolation n :: outer), cutContexts_append]
        cases g.cutContexts (token.enter []) token.rest with
        | error fault => rfl
        | ok found =>
          simp only [Except.map, Except.bind, List.append_eq_nil_iff, htext, false_and, if_false]
          cases g.cutContexts (.interpolation n :: outer) found.2 <;> simp

end Grammar

end LiterateSync
