import LiterateSync.Proofs.Segment.Spans
import LiterateSync.Proofs.Segment.Tiling
import LiterateSync.Proofs.Segment.Tokens
import LiterateSync.Text.Pattern.Library

namespace LiterateSync

namespace Grammar

variable {g : Grammar} {contexts cs : List Context} {before rest s : List Char} {m : Move}
  {fault : ScanFault} {n : Nat}

/-- The move over the token that begins at `c :: s`, whether or not it takes a character, or else
    `plain`. -/
def tokenRound (g : Grammar) (contexts : List Context) (c : Char) (s : List Char) (plain : Move) :
    Except ScanFault Move :=
  (g.token? (c :: s)).map fun
    | none => plain
    | some token => ⟨token.text, token.rest, some (token.enter contexts)⟩

/-- One round of the loops over a line of code. Nothing looks at whether it changes the place in
    the text. -/
def round (g : Grammar) (contexts : List Context) (s : List Char) : Except ScanFault Move :=
  match s, contexts with
  | [], _ => .ok ⟨[], [], none⟩
  | c :: s, [] => if c = '\n' then .ok ⟨[c], s, none⟩ else g.tokenRound [] c s ⟨[c], s, some []⟩
  | c :: s, .string q :: outer => .ok (stringMove q outer c s)
  | c :: s, .interpolation n :: outer =>
    g.tokenRound (.interpolation n :: outer) c s ⟨[c], s, some (braced c n outer)⟩

/-- One line of code, and the text after it, if the loops over it end within `n` rounds. -/
def cutCodeLineWithin (g : Grammar) : Nat → List Context → List Char → List Char →
    Option (Except ScanFault (List Char × List Char))
  | 0, _, _, _ => none
  | n + 1, contexts, before, s =>
    match g.round contexts s with
    | .error fault => some (.error fault)
    | .ok m =>
      match m.contexts with
      | none => some (.ok ((m.taken.reverseAux before).reverse, m.rest))
      | some cs => cutCodeLineWithin g n cs (m.taken.reverseAux before) m.rest

/-- The doc runs and the single lines of code of a text, if there are fewer than `n` of them and
    the loops over each line of code end within `n` rounds. -/
def spansWithin (g : Grammar) : Nat → List Char → Option (Except ScanFault (List Span))
  | 0, _ => none
  | _ + 1, [] => some (.ok [])
  | n + 1, c :: s =>
    match g.cutDocRun? (c :: s) with
    | .error fault => some (.error fault)
    | .ok (some (run, rest)) => (g.spansWithin n rest).map (·.map (⟨.doc, run⟩ :: ·))
    | .ok none =>
      match g.cutCodeLineWithin n [] [] (c :: s) with
      | none => none
      | some (.error fault) => some (.error fault)
      | some (.ok (line, rest)) => (g.spansWithin n rest).map (·.map (⟨.code, line⟩ :: ·))

theorem tokenRound_of_tokenMove {c : Char} {plain : Move}
    (h : g.tokenMove contexts c s plain = .ok m) : g.tokenRound contexts c s plain = .ok m := by
  obtain ⟨htoken, rfl⟩ | ⟨token, htoken, -, rfl⟩ := tokenMove_cases h <;>
    rw [tokenRound, htoken] <;> rfl

/-- The scan makes the moves of the loops. -/
theorem round_of_move (h : g.move contexts s = .ok m) : g.round contexts s = .ok m := by
  cases s with
  | nil => exact h
  | cons c s =>
    cases contexts with
    | nil =>
      rw [move] at h
      rw [round]
      split at h
      · rename_i hfeed
        rw [if_pos hfeed, h]
      · rename_i hfeed
        rw [if_neg hfeed, tokenRound_of_tokenMove h]
    | cons context outer =>
      cases context with
      | string q => exact h
      | interpolation n => exact tokenRound_of_tokenMove h

theorem OpensVisibly.tokenRound_of_tokenMove_error (hg : g.OpensVisibly) {c : Char} {plain : Move}
    (h : g.tokenMove contexts c s plain = .error fault) :
    (∃ b, fault = .unclosed (c :: s) b) ∧ g.tokenRound contexts c s plain = .error fault ∨
      fault = .stalled (c :: s) ∧
        g.tokenRound contexts c s plain = .ok ⟨[], c :: s, some contexts⟩ ∧
        (g.CommentsNothing (c :: s) ∨ g.QuotesNothing (c :: s)) := by
  unfold tokenMove at h
  split at h
  · rename_i fault' htoken
    cases h
    obtain ⟨b, -, -, -, -, hfault⟩ := exists_of_token?_eq_error htoken
    exact .inl ⟨⟨b, hfault⟩, by rw [tokenRound, htoken, Except.map]⟩
  · cases h
  · rename_i token htoken
    split at h
    · rename_i htext
      cases h
      have htext := List.isEmpty_iff.1 htext
      obtain ⟨hrest, hliteral, hnothing⟩ := hg.of_text_eq_nil htoken htext
      refine .inr ⟨rfl, ?_, hnothing⟩
      simp [tokenRound, htoken, Except.map, htext, hrest, Token.enter, hliteral]
    · cases h

/-- The scan stops where the loops stop, at a block comment that is not closed, and where a round
    changes nothing: at a heredoc that takes nothing, and in interpolated code at a line comment
    that begins with a line feed. -/
theorem OpensVisibly.round_of_move_error (hg : g.OpensVisibly)
    (h : g.move contexts s = .error fault) :
    (∃ b, fault = .unclosed s b) ∧ g.round contexts s = .error fault ∨
      fault = .stalled s ∧ g.round contexts s = .ok ⟨[], s, some contexts⟩ ∧
        ((∃ n, .interpolation n ∈ contexts) ∧ g.CommentsNothing s ∨ g.QuotesNothing s) := by
  cases s with
  | nil => cases contexts <;> cases h
  | cons c s =>
    cases contexts with
    | nil =>
      rw [move] at h
      rw [round]
      split at h
      · cases h
      · rename_i hfeed
        rw [if_neg hfeed]
        obtain hstop | ⟨hfault, hround, ⟨d, -, hhead, hopens⟩ | hquotes⟩ :=
          hg.tokenRound_of_tokenMove_error h
        · exact .inl hstop
        · obtain ⟨more, hmore⟩ := List.head?_eq_some_iff.1 hhead
          rw [hmore, List.cons_prefix_cons] at hopens
          exact absurd hopens.1.symm hfeed
        · exact .inr ⟨hfault, hround, .inr hquotes⟩
    | cons context outer =>
      cases context with
      | string q => cases h
      | interpolation n =>
        refine (hg.tokenRound_of_tokenMove_error h).imp_right ?_
        rintro ⟨hfault, hround, hnothing⟩
        exact ⟨hfault, hround, hnothing.imp_left (⟨⟨n, List.mem_cons_self⟩, ·⟩)⟩

/-- The loops over a line of code end with what the scan gives, within a number of rounds that the
    text bounds, unless the scan sees that they do not end. -/
theorem OpensVisibly.cutCodeLineWithin_eq (hg : g.OpensVisibly)
    (h : ∀ rest, g.cutCodeLine contexts before s ≠ .error (.stalled rest))
    (hn : 2 * s.length + contexts.length < n) :
    g.cutCodeLineWithin n contexts before s = some (g.cutCodeLine contexts before s) := by
  induction n generalizing contexts before s with
  | zero => exact absurd hn (Nat.not_lt_zero _)
  | succ n ih =>
    rw [cutCodeLineWithin]
    cases hmove : g.move contexts s with
    | error fault =>
      rw [cutCodeLine_of_move_error hmove] at h ⊢
      obtain ⟨-, hround⟩ | ⟨rfl, -⟩ := hg.round_of_move_error hmove
      · rw [hround]
      · exact absurd rfl (h s)
    | ok m =>
      rw [round_of_move hmove]
      cases hcs : m.contexts with
      | none => simp only [cutCodeLine_of_move_end hmove hcs, hcs]
      | some cs =>
        have hlt := move_contexts hmove hcs
        rw [cutCodeLine_of_move hmove hcs] at h ⊢
        simp only [hcs]
        exact ih h (by omega)

/-- The loops over a line of code end only with what the scan gives. Where the scan sees that they
    do not end, they do not. -/
theorem OpensVisibly.cutCodeLineWithin_sound (hg : g.OpensVisibly)
    {r : Except ScanFault (List Char × List Char)}
    (h : g.cutCodeLineWithin n contexts before s = some r) :
    g.cutCodeLine contexts before s = r ∧ ∀ rest, r ≠ .error (.stalled rest) := by
  induction n generalizing contexts before s with
  | zero => cases h
  | succ n ih =>
    rw [cutCodeLineWithin] at h
    cases hmove : g.move contexts s with
    | error fault =>
      obtain ⟨⟨b, rfl⟩, hround⟩ | ⟨-, hround, -⟩ := hg.round_of_move_error hmove
      · rw [hround] at h
        cases h
        exact ⟨cutCodeLine_of_move_error hmove, by simp⟩
      · -- the round leads to where it began
        rw [hround] at h
        exact ih h
    | ok m =>
      rw [round_of_move hmove] at h
      cases hcs : m.contexts with
      | none =>
        simp only [hcs, Option.some.injEq] at h
        subst h
        exact ⟨cutCodeLine_of_move_end hmove hcs, by simp⟩
      | some cs =>
        simp only [hcs] at h
        rw [cutCodeLine_of_move hmove hcs]
        exact ih h

/-- The loops over a line of code do not end only at a heredoc that takes nothing, or at a line
    comment that begins with a line feed if there are literals with interpolated code. -/
theorem OpensVisibly.exists_of_cutCodeLine_stalled (hg : g.OpensVisibly)
    (hadmits : ∀ x ∈ contexts, g.Admits x)
    (h : g.cutCodeLine contexts before s = .error (.stalled rest)) :
    rest <:+ s ∧
      ((∃ q ∈ g.strings, q.template = true) ∧ g.CommentsNothing rest ∨ g.QuotesNothing rest) := by
  fun_induction cutCodeLine g contexts before s with
  | case1 contexts before s fault hmove =>
    cases h
    obtain ⟨⟨b, hb⟩, -⟩ | ⟨hrest, -, ⟨⟨_, hn⟩, hcomment⟩ | hquotes⟩ := hg.round_of_move_error hmove
    · cases hb
    · cases hrest
      exact ⟨List.suffix_refl _, .inl ⟨hadmits _ hn, hcomment⟩⟩
    · cases hrest
      exact ⟨List.suffix_refl _, .inr hquotes⟩
  | case2 => cases h
  | case3 contexts before s m hmove cs hcs ih =>
    obtain ⟨hsuffix, hfound⟩ := ih (admits_move hadmits hmove hcs) h
    exact ⟨hsuffix.trans ⟨m.taken, append_of_move hmove⟩, hfound⟩

/-- The loops over a text do not end only at a heredoc that takes nothing, or at a line comment that
    begins with a line feed if there are literals with interpolated code. -/
theorem OpensVisibly.exists_of_spans_stalled (hg : g.OpensVisibly)
    (h : g.spans s = .error (.stalled rest)) :
    rest <:+ s ∧
      ((∃ q ∈ g.strings, q.template = true) ∧ g.CommentsNothing rest ∨ g.QuotesNothing rest) := by
  obtain ⟨t, hsuffix, hrun | ⟨-, hline⟩⟩ := exists_of_spans_eq_error h
  · obtain ⟨b, body, -, -, -, hunclosed⟩ := exists_of_cutDocRun?_eq_error hrun
    cases hunclosed
  · obtain ⟨hrest, hfound⟩ := hg.exists_of_cutCodeLine_stalled (by simp) hline
    exact ⟨hrest.trans hsuffix, hfound⟩

/-- The loop over the lines of a text ends with what the scan gives, within a number of rounds that
    the text bounds, unless the scan sees that the loops over some line do not end. -/
theorem OpensVisibly.spansWithin_eq (hg : g.OpensVisibly)
    (h : ∀ rest, g.spans s ≠ .error (.stalled rest)) (hn : 2 * s.length + 2 ≤ n) :
    g.spansWithin n s = some (g.spans s) := by
  induction n generalizing s with
  | zero => omega
  | succ n ih =>
    cases s with
    | nil => rw [spansWithin, spans]
    | cons c s =>
      have hne := List.cons_ne_nil c s
      have hmore : ∀ {x : Span} {rest}, g.spans (c :: s) = (g.spans rest).map (x :: ·) →
          ∀ r, g.spans rest ≠ .error (.stalled r) := by
        intro x rest hspans r hrest
        exact h r (by rw [hspans, hrest, Except.map])
      rw [spansWithin]
      cases hrun : g.cutDocRun? (c :: s) with
      | error fault => rw [spans_of_cutDocRun?_error hrun hne]
      | ok found =>
        cases found with
        | some found =>
          obtain ⟨run, rest⟩ := found
          have hspans := spans_of_cutDocRun? hrun hne
          have hlt := cutDocRun?_length_lt hrun hne
          simp only [ih (hmore hspans) (by omega), hspans, Option.map_some]
        | none =>
          have hline : g.cutCodeLineWithin n [] [] (c :: s) =
              some (g.cutCodeLine [] [] (c :: s)) := by
            refine hg.cutCodeLineWithin_eq (fun r hstalled => ?_) (by rw [List.length_nil]; omega)
            exact h r (spans_of_cutCodeLine_error hrun hstalled hne)
          simp only [hline]
          cases hcut : g.cutCodeLine [] [] (c :: s) with
          | error fault => rw [spans_of_cutCodeLine_error hrun hcut hne]
          | ok found =>
            obtain ⟨line, rest⟩ := found
            have hspans := spans_of_cutCodeLine hrun hcut hne
            have hlt := cutCodeLine_length_lt hcut
            simp only [ih (hmore hspans) (by omega), hspans, Option.map_some]

/-- The loop over the lines of a text ends only with what the scan gives. -/
theorem OpensVisibly.spansWithin_sound (hg : g.OpensVisibly) {r : Except ScanFault (List Span)}
    (h : g.spansWithin n s = some r) :
    g.spans s = r ∧ ∀ rest, r ≠ .error (.stalled rest) := by
  induction n generalizing s r with
  | zero => cases h
  | succ n ih =>
    cases s with
    | nil =>
      rw [spansWithin] at h
      cases h
      exact ⟨by rw [spans], by simp⟩
    | cons c s =>
      have hne := List.cons_ne_nil c s
      have hmore : ∀ {x : Span} {rest}, (g.spansWithin n rest).map (·.map (x :: ·)) = some r →
          (g.spans rest).map (x :: ·) = r ∧ ∀ t, r ≠ .error (.stalled t) := by
        intro x rest hmap
        obtain ⟨r', hr', rfl⟩ := Option.map_eq_some_iff.1 hmap
        obtain ⟨hspans, hstalled⟩ := ih hr'
        rw [hspans]
        refine ⟨rfl, fun t => ?_⟩
        cases r' with
        | error fault => simpa [Except.map] using hstalled t
        | ok more => simp [Except.map]
      rw [spansWithin] at h
      cases hrun : g.cutDocRun? (c :: s) with
      | error fault =>
        simp only [hrun, Option.some.injEq] at h
        subst h
        obtain ⟨b, body, -, -, -, rfl⟩ := exists_of_cutDocRun?_eq_error hrun
        exact ⟨spans_of_cutDocRun?_error hrun hne, by simp⟩
      | ok found =>
        cases found with
        | some found =>
          simp only [hrun] at h
          rw [spans_of_cutDocRun? hrun hne]
          exact hmore h
        | none =>
          simp only [hrun] at h
          split at h
          · cases h
          · rename_i fault hline
            obtain ⟨hcut, hstalled⟩ := hg.cutCodeLineWithin_sound hline
            cases h
            exact ⟨spans_of_cutCodeLine_error hrun hcut hne, by simpa using hstalled⟩
          · rename_i line rest hline
            rw [spans_of_cutCodeLine hrun (hg.cutCodeLineWithin_sound hline).1 hne]
            exact hmore h

/-- How the loops of the scan go through a text. -/
structure Advances (g : Grammar) : Prop where
  /-- Each doc run and each line of code takes a character. -/
  span : ∀ s text rest, s ≠ [] →
    g.cutDocRun? s = .ok (some (text, rest)) ∨ g.cutCodeLine [] [] s = .ok (text, rest) →
      text ++ rest = s ∧ text ≠ []
  /-- Each line of a doc run takes a character. -/
  docLine : ∀ s, s ≠ [] →
    (Text.cutLine s).1 ++ (Text.cutLine s).2 = s ∧ (Text.cutLine s).1 ≠ []
  /-- Each move over a line of code takes a character, unless it leaves a literal that may hold no
      line feed before one. -/
  move : ∀ contexts s m, (∀ x ∈ contexts, g.Admits x) → s ≠ [] → g.move contexts s = .ok m →
    m.taken ++ m.rest = s ∧ (m.taken = [] → '\n' ∈ s.head? ∧
      ∃ q outer, contexts = .string q :: outer ∧ m.contexts = some outer ∧ q.multiline = false)
  /-- Each comment, heredoc and literal takes a character, unless it is a line comment that begins
      with a line feed or a heredoc that takes nothing. -/
  token : ∀ s text rest, g.skip? s = .ok (some (text, rest)) →
    text ++ rest = s ∧ (text = [] → g.CommentsNothing s ∨ g.QuotesNothing s)
  /-- A line of code is taken token by token, and character by character where none begins. -/
  code : ∀ before c s, c ≠ '\n' → g.cutCodeLine [] before (c :: s) =
    (g.skip? (c :: s)).bind fun
      | none => g.cutCodeLine [] (c :: before) s
      | some (text, rest) =>
        if text = [] then .error (.stalled (c :: s))
        else g.cutCodeLine [] (text.reverseAux before) rest
  /-- Interpolated code is taken by the same tokens, and a brace where none begins may lead out of
      it. -/
  interpolation : ∀ n outer c s, g.cutContexts (.interpolation n :: outer) (c :: s) =
    (g.skip? (c :: s)).bind fun
      | none => (g.cutContexts (braced c n outer) s).map fun (text, rest) => (c :: text, rest)
      | some (text, rest) =>
        if text = [] then .error (.stalled (c :: s))
        else (g.cutContexts (.interpolation n :: outer) rest).map fun (more, rest) =>
          (text ++ more, rest)

theorem cutLine_fst_ne_nil (hs : s ≠ []) : (Text.cutLine s).1 ≠ [] := by
  intro hnil
  have happend := congrArg List.length (Text.append_cutLine s)
  have hlen := Text.cutLine_length_le s
  have hpos := List.length_pos_iff.2 hs
  rw [List.length_append, hnil, List.length_nil] at happend
  omega

theorem OpensVisibly.token_advances (hg : g.OpensVisibly) {text : List Char}
    (h : g.skip? s = .ok (some (text, rest))) :
    text ++ rest = s ∧ (text = [] → g.CommentsNothing s ∨ g.QuotesNothing s) := by
  unfold skip? at h
  split at h
  · cases h
  · cases h
  · rename_i token htoken
    cases hcut : g.cutContexts (token.enter []) token.rest with
    | error fault => simp [hcut, Except.map] at h
    | ok found =>
      rw [hcut] at h
      cases h
      refine ⟨?_, fun hnil => ?_⟩
      · rw [List.append_assoc, append_of_cutContexts hcut, append_of_token? htoken]
      · exact (hg.of_text_eq_nil htoken (List.append_eq_nil_iff.1 hnil).1).2.2

theorem stringMove_advances {q : StringSyntax} (hq : q.close ≠ "") {outer : List Context}
    {c : Char} (h : stringMove q outer c s = m) (hnil : m.taken = []) :
    c = '\n' ∧ q.multiline = false ∧ m.contexts = some outer := by
  unfold stringMove at h
  split at h
  · subst h
    exact absurd (String.toList_eq_nil_iff.1 hnil) hq
  · split at h
    · subst h
      cases hnil
    · split at h
      · subst h
        cases hnil
      · split at h
        · rename_i hfeed
          subst h
          simp only [Bool.and_eq_true, decide_eq_true_eq, Bool.not_eq_true'] at hfeed
          exact ⟨hfeed.1, hfeed.2, rfl⟩
        · subst h
          cases hnil

theorem move_advances (hclose : ∀ q ∈ g.strings, q.close ≠ "")
    (hadmits : ∀ x ∈ contexts, g.Admits x) (hs : s ≠ []) (h : g.move contexts s = .ok m)
    (hnil : m.taken = []) : '\n' ∈ s.head? ∧
      ∃ q outer, contexts = .string q :: outer ∧ m.contexts = some outer ∧
        q.multiline = false := by
  have htoken : ∀ {contexts c s plain}, g.tokenMove contexts c s plain = .ok m →
      plain.taken = [c] → m.taken ≠ [] := by
    intro contexts c s plain htoken hplain
    obtain rfl | ⟨token, htext, -, rfl⟩ := tokenMove_eq htoken
    · simp [hplain]
    · exact htext
  obtain ⟨c, s, rfl⟩ := List.exists_cons_of_ne_nil hs
  cases contexts with
  | nil =>
    rw [move] at h
    split at h
    · cases h
      cases hnil
    · exact absurd hnil (htoken h rfl)
  | cons context outer =>
    cases context with
    | string q =>
      have hq := hclose q (hadmits _ List.mem_cons_self)
      obtain ⟨rfl, hline, hcs⟩ := stringMove_advances hq (Except.ok.inj h) hnil
      exact ⟨rfl, q, outer, rfl, hcs, hline⟩
    | interpolation n => exact absurd hnil (htoken h rfl)

theorem OpensVisibly.advances (hg : g.OpensVisibly) (hclose : ∀ q ∈ g.strings, q.close ≠ "") :
    g.Advances where
  span s text rest hs h := by
    obtain hrun | hline := h
    · exact ⟨append_of_cutDocRun? hrun, cutDocRun?_ne_nil hrun hs⟩
    · obtain ⟨c, s, rfl⟩ := List.exists_cons_of_ne_nil hs
      exact ⟨append_of_cutCodeLine hline, cutCodeLine_ne_nil hline⟩
  docLine s hs := ⟨Text.append_cutLine s, cutLine_fst_ne_nil hs⟩
  move contexts s m hadmits hs h :=
    ⟨append_of_move h, fun hnil => move_advances hclose hadmits hs h hnil⟩
  token s text rest h := hg.token_advances h
  code before c s hc := hg.cutCodeLine_cons hc before s
  interpolation n outer c s := hg.cutContexts_interpolation n outer c s

end Grammar

theorem Profile.opensVisibly_grammar [RegexLibrary] (p : Profile) (hp : p.fault? = none) :
    p.grammar.OpensVisibly :=
  fun d hd => (ne_empty_of_fault? hp).1 d (mem_openings_of_grammar hd)

/-- The segments of a text, if the loops that find them end within `n` rounds each. -/
def segmentWithin [RegexLibrary] (n : Nat) (p : Profile) (text : String) :
    Option (Except SegmentError (List Segment)) :=
  match p.fault? with
  | some fault => some (.error (.ofFault p fault))
  | none =>
    (p.grammar.spansWithin n text.toList).map fun
      | .error fault => .error (fault.error text.toList)
      | .ok spans => .ok (Segment.place 0 (joinCode spans))

/-- Where the scan sees that the loops over a text do not end, they do not. -/
theorem segmentWithin_eq_none [RegexLibrary] {p : Profile} {text : String} {offset : Nat}
    (h : segment p text = .error (.stalled offset)) (n : Nat) : segmentWithin n p text = none := by
  obtain ⟨fault, -, hfault⟩ | ⟨hp, fault, hspans, hfault⟩ := segment_eq_error_iff.1 h
  · cases hfault
  · have hg := p.opensVisibly_grammar hp
    rw [segmentWithin, hp]
    cases hwithin : p.grammar.spansWithin n text.toList with
    | none => rfl
    | some r =>
      obtain ⟨hr, hne⟩ := hg.spansWithin_sound hwithin
      cases fault with
      | unclosed rest comment => cases hfault
      | stalled rest => exact absurd (hr.symm.trans hspans) (hne rest)

/-- Two things can keep the cutting of a text into segments from ending: a heredoc whose opening is
    found without a character and whose terminator has none, and a line comment that begins with a
    line feed, in a language whose literals hold code. Nothing else can: all loops go forward, and
    end within a number of rounds that the text bounds. -/
theorem segment_ends [RegexLibrary] {p : Profile} (hp : p.fault? = none) (text : String) :
    p.grammar.Advances ∧
      ((∀ n, 2 * text.length + 2 ≤ n → segmentWithin n p text = some (segment p text)) ∨
        (∀ n, segmentWithin n p text = none) ∧ ∃ before rest, text = before ++ rest ∧
          segment p text = .error (.stalled before.utf8ByteSize) ∧
          ((∃ q ∈ p.strings, q.template = true) ∧
              (∃ d ∈ p.lineComments, '\n' ∈ d.toList.head? ∧ d.toList <+: rest.toList) ∨
            ∃ h ∈ p.heredocs, ∃ opener ∈ h.opener?, h.startPrefix.toList <+: rest.toList ∧
              ∃ found ∈ opener.captures? rest.toList,
                found.stop = 0 ∧ h.terminator (found.group.getD []) = [])) := by
  have hdelimiters := (Profile.ne_empty_of_fault? hp).2
  have hg := p.opensVisibly_grammar hp
  have hclose : ∀ q ∈ p.grammar.strings, q.close ≠ "" := fun q hq =>
    ((Profile.forall_mem_delimiters.1 hdelimiters).2.2 q (Profile.mem_grammar_strings.1 hq)).2
  refine ⟨hg.advances hclose, ?_⟩
  by_cases hstalled : ∃ rest, p.grammar.spans text.toList = .error (.stalled rest)
  · obtain ⟨rest, hspans⟩ := hstalled
    have hsegment := segment_eq_error_iff.2 (.inr ⟨hp, _, hspans, rfl⟩)
    refine .inr ⟨segmentWithin_eq_none hsegment, ?_⟩
    obtain ⟨⟨before, hbefore⟩, hnothing⟩ := hg.exists_of_spans_stalled hspans
    refine ⟨String.ofList before, String.ofList rest, ?_, hsegment.trans ?_, ?_⟩
    · rw [← String.toList_inj, ← hbefore]
      simp
    · rw [ScanFault.error, ← hbefore, Segment.byteLength_append_sub]
    · rw [String.toList_ofList]
      obtain ⟨⟨q, hq, htemplate⟩, d, hd, hcomment⟩ | ⟨h, hh, hquotes⟩ := hnothing
      · exact .inl ⟨⟨q, Profile.mem_grammar_strings.1 hq, htemplate⟩, d,
          Profile.mem_grammar_lineComments.1 hd, hcomment⟩
      · obtain ⟨hmem, hopener⟩ := Profile.mem_heredocs_of_grammar hh
        exact .inr ⟨h.1, hmem, h.2, hopener, hquotes⟩
  · refine .inl fun n hn => ?_
    have hwithin := hg.spansWithin_eq (n := n) (fun rest hrest => hstalled ⟨rest, hrest⟩)
      (by rwa [String.length_toList])
    rw [segmentWithin, hp, hwithin, segment, hp]
    cases p.grammar.spans text.toList <;> rfl

/-- Interpolated code in which a line begins a comment with its line feed is never left. -/
theorem segment_ends_not_of_line_feed :
    let p : Profile :=
      { id := "p", lineComments := ["\n#"],
        strings := [{ delimiter := "`", multiline := true, template := true }] }
    let text := "`$\x7b\n# a\n\x7d`\n"
    p.fault? = none ∧ segment p text = .error (.stalled 3) ∧
      p.grammar.Advances ∧
      ((∀ n, 2 * text.length + 2 ≤ n → segmentWithin n p text = some (segment p text)) ∨
        (∀ n, segmentWithin n p text = none) ∧ ∃ before rest, text = before ++ rest ∧
          segment p text = .error (.stalled before.utf8ByteSize) ∧
          ((∃ q ∈ p.strings, q.template = true) ∧
              (∃ d ∈ p.lineComments, '\n' ∈ d.toList.head? ∧ d.toList <+: rest.toList) ∨
            ∃ h ∈ p.heredocs, ∃ opener ∈ h.opener?, h.startPrefix.toList <+: rest.toList ∧
              ∃ found ∈ opener.captures? rest.toList,
                found.stop = 0 ∧ h.terminator (found.group.getD []) = [])) := by
  intro p text
  have hp : p.fault? = none := by decide +kernel
  have hstalled : segment p text = .error (.stalled 3) := by decide +kernel
  exact ⟨hp, hstalled, segment_ends hp text⟩

end LiterateSync
