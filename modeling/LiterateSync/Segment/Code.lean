import LiterateSync.Segment.Grammar

namespace LiterateSync.Grammar

/-- Whether a line comment goes on after the line feed that follows `before`, which
    holds the comment so far in reverse. Carriage returns at its end do not count. -/
def continues (g : Grammar) (before : List Char) : Bool :=
  match g.continuation with
  | none => false
  | some mark => opens (String.ofList mark.toList.reverse) (before.dropWhile (· = '\r'))

/-- The rest of a line comment behind what `before` holds in reverse, and the text from the
    line feed that ends it. A line feed behind the continuation mark does not end it. -/
def cutLineComment (g : Grammar) (before : List Char) : List Char → List Char × List Char
  | [] => (before.reverse, [])
  | c :: s =>
    if c = '\n' && !g.continues before then (before.reverse, c :: s)
    else cutLineComment g (c :: before) s

/-- The heredoc whose opening was found at the start of the text, and the text after it. One
    without its terminator takes the whole text. -/
def closeHeredoc (h : Heredoc) (found : Regex.Captures) (s : List Char) : List Char × List Char :=
  let terminator := h.terminator (found.group.getD [])
  match Text.splitFirst? terminator (s.drop found.stop) with
  | none => (s, [])
  | some (inside, rest) => (s.take found.stop ++ inside ++ terminator, rest)

/-- The heredoc of one kind that opens at the start of the text, if one does, and the text
    after it. -/
def cutHeredocOf? (h : Heredoc × Regex) (s : List Char) : Option (List Char × List Char) :=
  if opens h.1.startPrefix s then (h.2.captures? s).map (closeHeredoc h.1 · s) else none

/-- The heredoc that opens at the start of the text, if one does, and the text after it. Of
    several that could open, the first in the grammar is taken. -/
def cutHeredoc? (g : Grammar) (s : List Char) : Option (List Char × List Char) :=
  g.heredocs.findSome? (cutHeredocOf? · s)

/-- A piece of code that is not taken character by character: a comment, a heredoc or the
    opening delimiter of a string literal. -/
structure Token where
  text : List Char
  /-- The text after the piece. -/
  rest : List Char
  /-- The string literal that the piece opens, if it opens one. -/
  literal : Option StringSyntax := none

/-- The token that begins at the start of the text, if one does. Block comments
    come before line comments, and both before heredocs and string literals. -/
def token? (g : Grammar) (s : List Char) : Except ScanFault (Option Token) :=
  match g.blockComment? s with
  | some comment => (cutBlockComment comment s).map fun (text, rest) => some { text, rest }
  | none =>
    if (g.lineComment? s).isSome then
      let (text, rest) := g.cutLineComment [] s
      .ok (some { text, rest })
    else
      match g.cutHeredoc? s with
      | some (text, rest) => .ok (some { text, rest })
      | none =>
        .ok ((g.string? s).map fun q =>
          ⟨s.take q.delimiter.length, s.drop q.delimiter.length, some q⟩)

/-- What a place in the code lies within. -/
inductive Context where
  /-- A string literal. -/
  | string (syntaxOf : StringSyntax)
  /-- Interpolated code, in which some braces are open besides its own. -/
  | interpolation (braces : Nat)
  deriving DecidableEq, Repr

/-- The contexts behind a token: a literal that opens is entered. -/
def Token.enter (contexts : List Context) (token : Token) : List Context :=
  match token.literal with
  | none => contexts
  | some q => .string q :: contexts

/-- One move of the scan over a line of code. -/
structure Move where
  /-- The characters that the move takes. -/
  taken : List Char
  /-- The text after them. -/
  rest : List Char
  /-- The contexts within which the scan goes on, unless the line has ended. -/
  contexts : Option (List Context)

/-- The move over the token that begins at `c :: s`, or else `plain`. A token that
    would take no character stops the scan for good. -/
def tokenMove (g : Grammar) (contexts : List Context) (c : Char) (s : List Char) (plain : Move) :
    Except ScanFault Move :=
  match g.token? (c :: s) with
  | .error fault => .error fault
  | .ok none => .ok plain
  | .ok (some token) =>
    if token.text.isEmpty then .error (.stalled (c :: s))
    else .ok ⟨token.text, token.rest, some (token.enter contexts)⟩

/-- The move inside a string literal: out of it behind its closing delimiter, over an
    escaped character, into interpolated code, out of a one-line literal before a
    line feed, or over one character. -/
def stringMove (q : StringSyntax) (outer : List Context) (c : Char) (s : List Char) : Move :=
  match after? q.close (c :: s) with
  | some rest => ⟨q.close.toList, rest, some outer⟩
  | none =>
    if q.escape = some c then ⟨c :: s.take 1, s.drop 1, some (.string q :: outer)⟩
    else if q.template && opens "$\x7b" (c :: s) then
      ⟨c :: s.take 1, s.drop 1, some (.interpolation 0 :: .string q :: outer)⟩
    else if c = '\n' && !q.multiline then ⟨[], c :: s, some outer⟩
    else ⟨[c], s, some (.string q :: outer)⟩

/-- The contexts behind one character of interpolated code. The brace that closes the
    code leads back into the literal. -/
def braced (c : Char) (braces : Nat) (outer : List Context) : List Context :=
  match c, braces with
  | '{', n => .interpolation (n + 1) :: outer
  | '}', 0 => outer
  | '}', n + 1 => .interpolation n :: outer
  | _, n => .interpolation n :: outer

/-- The next move of the scan. A line feed ends the line only outside all contexts,
    and the end of the text ends it anywhere. -/
def move (g : Grammar) (contexts : List Context) (s : List Char) : Except ScanFault Move :=
  match s, contexts with
  | [], _ => .ok ⟨[], [], none⟩
  | c :: s, [] =>
    if c = '\n' then .ok ⟨[c], s, none⟩ else g.tokenMove [] c s ⟨[c], s, some []⟩
  | c :: s, .string q :: outer => .ok (stringMove q outer c s)
  | c :: s, .interpolation n :: outer =>
    g.tokenMove (.interpolation n :: outer) c s ⟨[c], s, some (braced c n outer)⟩

theorem append_cutLineComment (g : Grammar) (before s : List Char) :
    (g.cutLineComment before s).1 ++ (g.cutLineComment before s).2 = before.reverse ++ s := by
  induction s generalizing before with
  | nil => simp [cutLineComment]
  | cons c s ih =>
    rw [cutLineComment]
    split
    · rfl
    · rw [ih, List.reverse_cons, List.append_assoc, List.singleton_append]

theorem append_closeHeredoc (h : Heredoc) (found : Regex.Captures) (s : List Char) :
    (closeHeredoc h found s).1 ++ (closeHeredoc h found s).2 = s := by
  rw [closeHeredoc]
  cases hsplit : Text.splitFirst? (h.terminator (found.group.getD [])) (s.drop found.stop) with
  | none => simp
  | some r => simp [← Text.append_of_splitFirst? hsplit]

theorem append_of_cutHeredoc? {g : Grammar} {s text rest : List Char}
    (h : g.cutHeredoc? s = some (text, rest)) : text ++ rest = s := by
  obtain ⟨heredoc, _, hcut⟩ := List.exists_of_findSome?_eq_some h
  obtain ⟨-, hfound⟩ := Option.ite_none_right_eq_some.1 hcut
  obtain ⟨found, _, hfound⟩ := Option.map_eq_some_iff.1 hfound
  have happend := append_closeHeredoc heredoc.1 found s
  rwa [hfound] at happend

/-- A token and what it leaves are the text that it begins. -/
theorem append_of_token? {g : Grammar} {s : List Char} {token : Token}
    (h : g.token? s = .ok (some token)) : token.text ++ token.rest = s := by
  unfold token? at h
  split at h
  · rename_i comment _
    cases hblock : cutBlockComment comment s with
    | error fault => simp [hblock, Except.map] at h
    | ok block =>
      simp only [hblock, Except.map, Except.ok.injEq, Option.some.injEq] at h
      exact h ▸ append_of_cutBlockComment hblock
  · split at h
    · cases h
      exact g.append_cutLineComment [] s
    · split at h
      · rename_i hheredoc
        cases h
        exact append_of_cutHeredoc? hheredoc
      · obtain ⟨q, _, rfl⟩ := Option.map_eq_some_iff.1 (Except.ok.inj h)
        exact List.take_append_drop _ s

theorem tokenMove_eq {g : Grammar} {contexts : List Context} {c : Char} {s : List Char}
    {plain m : Move} (h : g.tokenMove contexts c s plain = .ok m) :
    m = plain ∨ ∃ token : Token, token.text ≠ [] ∧ token.text ++ token.rest = c :: s ∧
      m = ⟨token.text, token.rest, some (token.enter contexts)⟩ := by
  unfold tokenMove at h
  split at h
  · cases h
  · cases h
    exact .inl rfl
  · rename_i token htoken
    split at h
    · cases h
    · rename_i htext
      cases h
      exact .inr ⟨token, by simpa using htext, append_of_token? htoken, rfl⟩

theorem append_stringMove (q : StringSyntax) (outer : List Context) (c : Char) (s : List Char) :
    (stringMove q outer c s).taken ++ (stringMove q outer c s).rest = c :: s := by
  unfold stringMove
  split
  · rename_i hclose
    exact (Text.afterPrefix?_eq_some_iff.1 hclose).symm
  · split
    · rw [List.cons_append, List.take_append_drop]
    · split
      · rw [List.cons_append, List.take_append_drop]
      · split <;> rfl

/-- A move and what it leaves are the text. -/
theorem append_of_move {g : Grammar} {contexts : List Context} {s : List Char} {m : Move}
    (h : g.move contexts s = .ok m) : m.taken ++ m.rest = s := by
  unfold move at h
  split at h
  · cases h
    rfl
  · split at h
    · cases h
      rfl
    · rcases tokenMove_eq h with rfl | ⟨token, _, happend, rfl⟩
      · rfl
      · exact happend
  · exact Except.ok.inj h ▸ append_stringMove _ _ _ _
  · rcases tokenMove_eq h with rfl | ⟨token, _, happend, rfl⟩
    · rfl
    · exact happend

theorem rest_length_lt {text rest s : List Char} (htext : text ≠ []) (h : text ++ rest = s) :
    rest.length < s.length := by
  have hpos := List.length_pos_iff.2 htext
  rw [← h, List.length_append]
  omega

theorem Token.enter_length_le (contexts : List Context) (token : Token) :
    (token.enter contexts).length ≤ contexts.length + 1 := by
  unfold Token.enter
  split <;> simp

theorem braced_length_le (c : Char) (braces : Nat) (outer : List Context) :
    (braced c braces outer).length ≤ outer.length + 1 := by
  unfold braced
  split <;> simp

theorem stringMove_contexts {q : StringSyntax} {outer cs : List Context} {c : Char}
    {s : List Char} {m : Move} (h : stringMove q outer c s = m) (hcs : m.contexts = some cs) :
    2 * m.rest.length + cs.length < 2 * (s.length + 1) + (outer.length + 1) := by
  unfold stringMove at h
  split at h
  · rename_i hclose
    have hlen := (Text.suffix_of_afterPrefix? hclose).length_le
    subst h
    cases hcs
    simp only [List.length_cons] at hlen ⊢
    omega
  · split at h
    · subst h
      cases hcs
      simp only [List.length_drop, List.length_cons]
      omega
    · split at h
      · rename_i htemplate
        subst h
        cases hcs
        cases s with
        | nil => simp [opens, after?, Text.afterPrefix?] at htemplate
        | cons d s => simp only [List.length_drop, List.length_cons]; omega
      · split at h <;> subst h <;> cases hcs <;> simp only [List.length_cons] <;> omega

/-- A move takes characters, or it leaves a context, or it ends the line. -/
theorem move_contexts {g : Grammar} {contexts cs : List Context} {s : List Char} {m : Move}
    (h : g.move contexts s = .ok m) (hcs : m.contexts = some cs) :
    2 * m.rest.length + cs.length < 2 * s.length + contexts.length := by
  unfold move at h
  split at h
  · cases h
    cases hcs
  · split at h
    · cases h
      cases hcs
    · rcases tokenMove_eq h with rfl | ⟨token, htext, happend, rfl⟩
      · cases hcs
        simp
      · cases hcs
        have hlen := rest_length_lt htext happend
        have henter := Token.enter_length_le [] token
        simp only [List.length_nil] at henter ⊢
        omega
  · simpa using stringMove_contexts (Except.ok.inj h) hcs
  · rename_i c s n outer
    rcases tokenMove_eq h with rfl | ⟨token, htext, happend, rfl⟩
    · cases hcs
      have hbraced := braced_length_le c n outer
      simp only [List.length_cons]
      omega
    · cases hcs
      have hlen := rest_length_lt htext happend
      have henter := Token.enter_length_le (.interpolation n :: outer) token
      simp only [List.length_cons] at hlen henter ⊢
      omega

/-- Outside all contexts a move takes at least one character, if there is one. -/
theorem move_nil_length_lt {g : Grammar} {c : Char} {s : List Char} {m : Move}
    (h : g.move [] (c :: s) = .ok m) : m.rest.length < (c :: s).length := by
  unfold move at h
  simp only at h
  split at h
  · cases h
    exact Nat.lt_succ_self _
  · rcases tokenMove_eq h with rfl | ⟨token, htext, happend, rfl⟩
    · exact Nat.lt_succ_self _
    · exact rest_length_lt htext happend

/-- One line of code, and the text after it, when the scan stands within `contexts`, the
    innermost first, behind what `before` holds in reverse. A context that is not closed
    runs to the end of the text. -/
def cutCodeLine (g : Grammar) (contexts : List Context) (before s : List Char) :
    Except ScanFault (List Char × List Char) :=
  match _ : g.move contexts s with
  | .error fault => .error fault
  | .ok m =>
    match _ : m.contexts with
    | none => .ok ((m.taken.reverseAux before).reverse, m.rest)
    | some cs => cutCodeLine g cs (m.taken.reverseAux before) m.rest
termination_by 2 * s.length + contexts.length
decreasing_by exact move_contexts (by assumption) (by assumption)

/-- A line of code and what it leaves are the text. -/
theorem append_of_cutCodeLine {g : Grammar} {contexts : List Context}
    {before s line rest : List Char} (h : g.cutCodeLine contexts before s = .ok (line, rest)) :
    line ++ rest = before.reverse ++ s := by
  fun_induction cutCodeLine g contexts before s with
  | case1 => cases h
  | case2 contexts before s m hmove =>
    cases h
    simp [List.reverseAux_eq, append_of_move hmove]
  | case3 contexts before s m hmove cs _ ih =>
    simp [ih h, List.reverseAux_eq, append_of_move hmove]

theorem length_of_cutCodeLine {g : Grammar} {contexts : List Context}
    {before s line rest : List Char} (h : g.cutCodeLine contexts before s = .ok (line, rest)) :
    rest.length ≤ s.length := by
  fun_induction cutCodeLine g contexts before s with
  | case1 => cases h
  | case2 contexts before s m hmove =>
    cases h
    simp [← append_of_move hmove]
  | case3 contexts before s m hmove cs _ ih =>
    have hlen := ih h
    simp [← append_of_move hmove]
    omega

/-- A line of code takes at least one character of a text that is not empty. -/
theorem cutCodeLine_length_lt {g : Grammar} {c : Char} {s line rest : List Char}
    (h : g.cutCodeLine [] [] (c :: s) = .ok (line, rest)) : rest.length < (c :: s).length := by
  rw [cutCodeLine] at h
  split at h
  · cases h
  · rename_i m hmove
    have hlen := move_nil_length_lt hmove
    split at h
    · cases h
      exact hlen
    · exact Nat.lt_of_le_of_lt (length_of_cutCodeLine h) hlen

end LiterateSync.Grammar
