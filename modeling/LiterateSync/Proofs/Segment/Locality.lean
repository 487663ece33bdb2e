import LiterateSync.Proofs.Language.Regular
import LiterateSync.Proofs.Segment.Contexts

namespace LiterateSync.Grammar

variable {g : Grammar} {contexts : List Context} {before line rest s t r r' : List Char}

theorem opens_append {d : String} (hd : '\n' ∉ d.toList) (hs : '\n' ∈ s) (r : List Char) :
    opens d (s ++ r) = opens d s := by
  rw [Bool.eq_iff_iff, opens_iff, opens_iff, Text.prefix_append_iff hd hs]

theorem find?_opens_append {α : Type} {delimiter : α → String} {xs : List α}
    (hxs : ∀ x ∈ xs, '\n' ∉ (delimiter x).toList) (hs : '\n' ∈ s) (r : List Char) :
    xs.find? (fun x => opens (delimiter x) (s ++ r)) = xs.find? fun x => opens (delimiter x) s := by
  induction xs with
  | nil => rfl
  | cons x xs ih =>
    obtain ⟨hx, hxs⟩ := List.forall_mem_cons.1 hxs
    simp only [List.find?_cons, opens_append hx hs, ih hxs]

namespace IsOneLine

theorem lineComment?_append (hg : g.IsOneLine) (hs : '\n' ∈ s) (r : List Char) :
    g.lineComment? (s ++ r) = g.lineComment? s :=
  find?_opens_append hg.line hs r

theorem blockComment?_append (hg : g.IsOneLine) (hs : '\n' ∈ s) (r : List Char) :
    g.blockComment? (s ++ r) = g.blockComment? s :=
  find?_opens_append hg.opening hs r

theorem string?_append (hg : g.IsOneLine) (hs : '\n' ∈ s) (r : List Char) :
    g.string? (s ++ r) = g.string? s :=
  find?_opens_append hg.delimiter hs r

end IsOneLine

theorem exists_append_cutLineComment (g : Grammar) (before s : List Char) :
    ∃ more, (g.cutLineComment before s).1 = before.reverse ++ more := by
  induction s generalizing before with
  | nil => exact ⟨[], by simp [cutLineComment]⟩
  | cons c s ih =>
    rw [cutLineComment]
    split
    · exact ⟨[], by simp⟩
    · obtain ⟨more, hmore⟩ := ih (c :: before)
      exact ⟨c :: more, by simp [hmore]⟩

/-- A line comment ends before a line feed or at the end of the text. -/
theorem cutLineComment_rest (g : Grammar) (before s : List Char) :
    (g.cutLineComment before s).2 = [] ∨ ∃ more, (g.cutLineComment before s).2 = '\n' :: more := by
  induction s generalizing before with
  | nil => exact .inl rfl
  | cons c s ih =>
    rw [cutLineComment]
    split
    · rename_i hend
      simp only [Bool.and_eq_true, decide_eq_true_eq] at hend
      exact .inr ⟨s, by rw [hend.1]⟩
    · exact ih (c :: before)

/-- Where a line comment ends depends on the text up to the line feed that ends it. -/
theorem cutLineComment_replace
    (h : g.cutLineComment before (t ++ '\n' :: r) = (before.reverse ++ t, '\n' :: r))
    (r' : List Char) :
    g.cutLineComment before (t ++ '\n' :: r') = (before.reverse ++ t, '\n' :: r') := by
  induction t generalizing before with
  | nil =>
    rw [List.nil_append, cutLineComment] at h ⊢
    split at h
    · rename_i hend
      rw [if_pos hend, List.append_nil]
    · obtain ⟨more, hmore⟩ := exists_append_cutLineComment g ('\n' :: before) r
      rw [h] at hmore
      simp at hmore
  | cons c t ih =>
    rw [List.cons_append, cutLineComment] at h ⊢
    split at h
    · have hlen := congrArg List.length (Prod.mk.inj h).1
      simp at hlen
    · rename_i hmore
      rw [if_neg hmore]
      have hstep := @ih (c :: before) (by simpa using h)
      simpa using hstep

/-- A line comment that ends before the end of a text is the same one where other text follows. -/
theorem cutLineComment_replace_rest {text u : List Char} (hu : u ≠ [])
    (h : g.cutLineComment [] (text ++ (u ++ r)) = (text, u ++ r)) (r' : List Char) :
    g.cutLineComment [] (text ++ (u ++ r')) = (text, u ++ r') := by
  obtain ⟨c, u, rfl⟩ := List.exists_cons_of_ne_nil hu
  have hc : c = '\n' := by
    obtain hnil | ⟨more, hmore⟩ := cutLineComment_rest g [] (text ++ (c :: u ++ r))
    · rw [h] at hnil
      cases hnil
    · rw [h] at hmore
      exact (List.cons.inj hmore).1
  rw [List.cons_append, hc] at h ⊢
  exact cutLineComment_replace h (u ++ r')

/-- A piece of fixed length that ends before the end of a text is the same one where other text
    follows. -/
theorem take_replace {n : Nat} {u : List Char} (htext : (t ++ r).take n ++ u = t) (hu : u ≠ [])
    (r' : List Char) :
    (t ++ r').take n = (t ++ r).take n ∧ (t ++ r').drop n = u ++ r' := by
  have hlength : n = ((t ++ r).take n).length := by
    have hpos := List.length_pos_iff.2 hu
    have ht := congrArg List.length htext
    rw [List.length_append] at ht
    rw [List.length_take, List.length_append] at ht ⊢
    omega
  generalize (t ++ r).take n = text at htext hlength
  subst htext hlength
  exact ⟨by rw [List.append_assoc, List.take_left], by rw [List.append_assoc, List.drop_left]⟩

section HeredocOf

variable {h : Heredoc × Regex} {p : Text.Pattern} {ident inside body behind text : List Char}

theorem cutHeredocOf?_of_not_starts (hopens : ¬ h.1.startPrefix.toList <+: s) :
    cutHeredocOf? h s = none :=
  if_neg (by rwa [opens_iff])

theorem cutHeredocOf?_prefix_append (h : Heredoc × Regex) (body : List Char) :
    cutHeredocOf? h (h.1.startPrefix.toList ++ body) =
      (h.2.captures? (h.1.startPrefix.toList ++ body)).map
        (closeHeredoc h.1 · (h.1.startPrefix.toList ++ body)) :=
  if_pos (opens_iff.2 (List.prefix_append _ _))

/-- A kind of heredoc opens a text that begins with its prefix and goes on with an identifier. -/
theorem cutHeredocOf?_eq_none_iff
    (hfinds : h.2.Finds h.1.startPrefix.toList p h.1.startSuffix.toList) :
    cutHeredocOf? h s = none ↔ ∀ body, s = h.1.startPrefix.toList ++ body →
      p.matchBefore? h.1.startSuffix.toList body = none := by
  by_cases hopens : h.1.startPrefix.toList <+: s
  · obtain ⟨body, rfl⟩ := hopens
    simp [cutHeredocOf?_prefix_append, hfinds body]
  · exact iff_of_true (cutHeredocOf?_of_not_starts hopens)
      fun body heq => absurd ⟨body, heq.symm⟩ hopens

/-- A heredoc goes on behind its opening. -/
theorem closeHeredoc_append
    (hmatch : p.matchBefore? h.1.startSuffix.toList body = some (ident, behind)) :
    closeHeredoc h.1 ⟨h.1.startPrefix.toList.length + ident.length +
        h.1.startSuffix.toList.length, some ident⟩ (h.1.startPrefix.toList ++ body) =
      match Text.splitFirst? (h.1.terminator ident) behind with
      | none => (h.1.startPrefix.toList ++ body, [])
      | some (inside, rest) =>
        (h.1.startPrefix.toList ++ ident ++ h.1.startSuffix.toList ++ inside ++
          h.1.terminator ident, rest) := by
  have hbody : h.1.startPrefix.toList ++ body =
      (h.1.startPrefix.toList ++ ident ++ h.1.startSuffix.toList) ++ behind := by
    simp [← Text.Pattern.append_of_matchBefore? hmatch]
  rw [← List.length_append, ← List.length_append, hbody]
  cases hsplit : Text.splitFirst? (h.1.terminator ident) behind with
  | none => simp only [closeHeredoc, Option.getD_some, List.drop_left, hsplit]
  | some r => simp only [closeHeredoc, Option.getD_some, List.drop_left, List.take_left, hsplit]

theorem cutHeredocOf?_append
    (hfinds : h.2.Finds h.1.startPrefix.toList p h.1.startSuffix.toList)
    (hmatch : p.matchBefore? h.1.startSuffix.toList body = some (ident, behind))
    (hsplit : Text.splitFirst? (h.1.terminator ident) behind = some (inside, rest)) :
    cutHeredocOf? h (h.1.startPrefix.toList ++ body) =
      some (h.1.startPrefix.toList ++ ident ++ h.1.startSuffix.toList ++ inside ++
        h.1.terminator ident, rest) := by
  rw [cutHeredocOf?_prefix_append, hfinds body, hmatch, Option.map_some, Option.map_some,
    closeHeredoc_append hmatch, hsplit]

/-- A heredoc that ends before the end of a text has its terminator. -/
theorem exists_of_cutHeredocOf?
    (hfinds : h.2.Finds h.1.startPrefix.toList p h.1.startSuffix.toList) (hrest : rest ≠ [])
    (hcut : cutHeredocOf? h s = some (text, rest)) :
    ∃ ident inside body behind,
      text = h.1.startPrefix.toList ++ ident ++ h.1.startSuffix.toList ++ inside ++
        h.1.terminator ident ∧
      s = h.1.startPrefix.toList ++ body ∧
      p.matchBefore? h.1.startSuffix.toList body = some (ident, behind) ∧
      Text.splitFirst? (h.1.terminator ident) behind = some (inside, rest) := by
  obtain ⟨body, rfl⟩ : h.1.startPrefix.toList <+: s := by
    by_contra hopens
    rw [cutHeredocOf?_of_not_starts hopens] at hcut
    cases hcut
  rw [cutHeredocOf?_prefix_append, hfinds body] at hcut
  cases hmatch : p.matchBefore? h.1.startSuffix.toList body with
  | none =>
    rw [hmatch] at hcut
    cases hcut
  | some found =>
    obtain ⟨ident, behind⟩ := found
    rw [hmatch, Option.map_some, Option.map_some, closeHeredoc_append hmatch] at hcut
    split at hcut
    · exact absurd (Prod.mk.inj (Option.some.inj hcut)).2.symm hrest
    · rename_i inside rest' hsplit
      obtain ⟨rfl, rfl⟩ := Prod.mk.inj (Option.some.inj hcut)
      exact ⟨ident, inside, body, behind, rfl, rfl, hmatch, hsplit⟩

/-- A heredoc that ends before the end of a text is the same one where other text follows, if its
    identifier is. -/
theorem cutHeredocOf?_replace {u : List Char} (hu : '\n' ∈ u)
    (hfinds : h.2.Finds h.1.startPrefix.toList p h.1.startSuffix.toList)
    (hmatch : ∀ ident body behind, '\n' ∈ body →
      p.matchBefore? h.1.startSuffix.toList (body ++ r) = some (ident, behind ++ r) →
      p.matchBefore? h.1.startSuffix.toList (body ++ r') = some (ident, behind ++ r'))
    (hcut : cutHeredocOf? h (text ++ u ++ r) = some (text, u ++ r)) :
    cutHeredocOf? h (text ++ u ++ r') = some (text, u ++ r') := by
  obtain ⟨ident, inside, body, behind, rfl, hbody, hfound, hsplit⟩ :=
    exists_of_cutHeredocOf? hfinds (by simp [List.ne_nil_of_mem hu]) hcut
  have hbehind := Text.append_of_splitFirst? hsplit
  simp only [List.append_assoc, List.append_cancel_left_eq] at hbody hbehind
  subst hbody hbehind
  have hreplace := Text.splitFirst?_replace hsplit (u ++ r')
  have hfound' := hmatch ident
    (ident ++ (h.1.startSuffix.toList ++ (inside ++ (h.1.terminator ident ++ u))))
    (inside ++ (h.1.terminator ident ++ u)) (by simp [hu]) (by simpa using hfound)
  simpa using cutHeredocOf?_append hfinds hfound' (by simpa using hreplace)

end HeredocOf

/-- Whether heredocs that end in a line before a text, or do not open there, do so before another
    text as well. -/
def HeredocsAgree (g : Grammar) (r r' : List Char) : Prop :=
  ∀ h ∈ g.heredocs, ∀ t, '\n' ∈ t →
    (cutHeredocOf? h (t ++ r) = none → cutHeredocOf? h (t ++ r') = none) ∧
    ∀ text u, text ++ u = t → '\n' ∈ u → cutHeredocOf? h (t ++ r) = some (text, u ++ r) →
      cutHeredocOf? h (t ++ r') = some (text, u ++ r')

/-- A heredoc whose identifier holds no line feed, with its terminator or without opening, is told
    by the text up to the end of the terminator and of the line. -/
theorem IsLineBound.heredocsAgree (hg : g.IsLineBound) (r r' : List Char) :
    g.HeredocsAgree r r' := by
  intro h hh t ht
  have hstarts := (hg.startPrefix h hh).not_mem (c := '\n') (by simp)
  obtain ⟨p, hp, hfinds⟩ := hg.finds h hh
  have hmatch := fun {body} (hbody : '\n' ∈ body) =>
    Text.Pattern.matchBefore?_append hp (hg.startSuffix h hh) hbody
  refine ⟨fun hnone => ?_, fun text u htext hu hcut => ?_⟩
  · rw [cutHeredocOf?_eq_none_iff hfinds] at hnone ⊢
    intro body hbody
    have hopens : h.1.startPrefix.toList <+: t :=
      (Text.prefix_append_iff hstarts ht r').1 ⟨body, hbody.symm⟩
    obtain ⟨u, rfl⟩ := hopens
    rw [List.append_assoc, List.append_cancel_left_eq] at hbody
    have hu := (List.mem_append.1 ht).resolve_left hstarts
    have hcut := hnone (u ++ r) (List.append_assoc _ _ _)
    rw [hmatch hu, Option.map_eq_none_iff] at hcut
    rw [← hbody, hmatch hu, hcut]
    rfl
  · subst htext
    refine cutHeredocOf?_replace hu hfinds (fun ident body behind hbody hfound => ?_) hcut
    rw [hmatch hbody, Option.map_eq_some_iff] at hfound ⊢
    obtain ⟨⟨ident, rest⟩, hfound, heq⟩ := hfound
    obtain ⟨rfl, hrest⟩ := Prod.mk.inj heq
    exact ⟨_, hfound, by rw [List.append_cancel_right hrest]⟩

/-- A heredoc that ends before the end of a text, or does not open there, does so where nothing
    stands behind it. -/
theorem FindsPatterns.heredocsAgree_nil (hg : g.FindsPatterns) (r : List Char) :
    g.HeredocsAgree r [] := by
  intro h hh t _
  obtain ⟨p, hfinds⟩ := hg h hh
  rw [List.append_nil]
  refine ⟨fun hnone => ?_, fun text u htext hu hcut => ?_⟩
  · rw [cutHeredocOf?_eq_none_iff hfinds] at hnone ⊢
    rintro body rfl
    exact Text.Pattern.matchBefore?_eq_none_of_append (hnone (body ++ r) (List.append_assoc _ _ _))
  · subst htext
    have hreplace : cutHeredocOf? h (text ++ u ++ []) = some (text, u ++ []) :=
      cutHeredocOf?_replace hu hfinds (fun ident body behind _ hfound => by
        simpa using Text.Pattern.matchBefore?_cut hfound) hcut
    simpa using hreplace

theorem HeredocsAgree.append (hagree : g.HeredocsAgree r r') (s : List Char) :
    g.HeredocsAgree (s ++ r) (s ++ r') := by
  intro h hh t ht
  obtain ⟨hnone, hsome⟩ := hagree h hh (t ++ s) (List.mem_append_left s ht)
  simp only [List.append_assoc] at hnone hsome
  refine ⟨hnone, fun text u htext hu => ?_⟩
  simpa only [List.append_assoc] using
    hsome text (u ++ s) (by rw [← List.append_assoc, htext]) (List.mem_append_left s hu)

theorem HeredocsAgree.cutHeredoc?_eq_none (hagree : g.HeredocsAgree r r') (ht : '\n' ∈ t)
    (h : g.cutHeredoc? (t ++ r) = none) : g.cutHeredoc? (t ++ r') = none := by
  rw [cutHeredoc?, List.findSome?_eq_none_iff] at h ⊢
  exact fun heredoc hmem => (hagree heredoc hmem t ht).1 (h heredoc hmem)

theorem HeredocsAgree.cutHeredoc?_replace (hagree : g.HeredocsAgree r r') {text u : List Char}
    (htext : text ++ u = t) (hu : '\n' ∈ u) (h : g.cutHeredoc? (t ++ r) = some (text, u ++ r)) :
    g.cutHeredoc? (t ++ r') = some (text, u ++ r') := by
  have ht : '\n' ∈ t := htext ▸ List.mem_append_right text hu
  rw [cutHeredoc?, List.findSome?_eq_some_iff] at h ⊢
  obtain ⟨first, heredoc, second, hsplit, hfound, hfirst⟩ := h
  have hmem : ∀ x ∈ first ++ heredoc :: second, x ∈ g.heredocs := fun x hx => hsplit ▸ hx
  refine ⟨first, heredoc, second, hsplit, ?_, fun x hx => ?_⟩
  · exact (hagree heredoc (hmem heredoc (by simp)) t ht).2 text u htext hu hfound
  · exact (hagree x (hmem x (List.mem_append_left _ hx)) t ht).1 (hfirst x hx)

/-- A block comment is told by the text up to its end. -/
theorem cutBlockComment_replace {b : BlockComment} {text u : List Char}
    (hopens : b.opening.toList <+: text ++ u)
    (h : cutBlockComment b (text ++ u) = .ok (text, u)) (u' : List Char) :
    cutBlockComment b (text ++ u') = .ok (text, u') := by
  obtain ⟨body, inside, hbody, hsplit, rfl⟩ := exists_of_cutBlockComment hopens h
  have hreplace := Text.splitFirst?_replace hsplit u'
  rw [List.append_assoc, List.append_assoc, ← List.append_assoc inside,
    cutBlockComment_append hreplace, List.append_assoc]

/-- A token that ends before the end of its line is told by the text of the line. -/
theorem IsOneLine.token?_replace (hg : g.IsOneLine) (hagree : g.HeredocsAgree r r')
    {token : Token} {u : List Char}
    (htext : token.text ++ u = t) (hu : '\n' ∈ u) (hrest : token.rest = u ++ r)
    (h : g.token? (t ++ r) = .ok (some token)) :
    g.token? (t ++ r') = .ok (some { token with rest := u ++ r' }) := by
  have ht : '\n' ∈ t := htext ▸ List.mem_append_right _ hu
  unfold token? at h ⊢
  rw [hg.blockComment?_append ht, hg.lineComment?_append ht] at h ⊢
  split at h
  · rename_i b hb
    cases hcut : cutBlockComment b (t ++ r) with
    | error fault => simp [hcut, Except.map] at h
    | ok found =>
      obtain ⟨text, rest⟩ := found
      simp only [hcut, Except.map, Except.ok.injEq, Option.some.injEq] at h
      subst h
      simp only at htext hrest
      subst htext hrest
      have hopens := (prefix_of_blockComment? hb).trans (List.prefix_append _ r)
      rw [List.append_assoc] at hcut hopens ⊢
      rw [cutBlockComment_replace hopens hcut (u ++ r')]
      rfl
  · split at h
    · rename_i hline
      rw [if_pos hline]
      simp only [Except.ok.injEq, Option.some.injEq] at h ⊢
      subst h
      simp only at htext hrest ⊢
      have hcut : g.cutLineComment [] (t ++ r) = ((g.cutLineComment [] (t ++ r)).1, u ++ r) :=
        Prod.ext rfl hrest
      generalize (g.cutLineComment [] (t ++ r)).1 = text at htext hcut ⊢
      rw [← htext, List.append_assoc] at hcut ⊢
      rw [cutLineComment_replace_rest (List.ne_nil_of_mem hu) hcut r']
    · rename_i hline
      rw [if_neg hline]
      split at h
      · rename_i text rest hcut
        cases h
        simp only at htext hrest
        rw [hagree.cutHeredoc?_replace htext hu (hrest ▸ hcut)]
      · rename_i hnone
        rw [hagree.cutHeredoc?_eq_none ht hnone]
        rw [hg.string?_append ht] at h ⊢
        simp only [Except.ok.injEq, Option.map_eq_some_iff] at h ⊢
        obtain ⟨q, hq, rfl⟩ := h
        simp only at htext hrest
        obtain ⟨htake, hdrop⟩ := take_replace htext (List.ne_nil_of_mem hu) r'
        exact ⟨q, hq, by rw [htake, hdrop]⟩

theorem IsOneLine.token?_eq_none (hg : g.IsOneLine) (hagree : g.HeredocsAgree r r')
    (ht : '\n' ∈ t) (h : g.token? (t ++ r) = .ok none) : g.token? (t ++ r') = .ok none := by
  unfold token? at h ⊢
  rw [hg.blockComment?_append ht, hg.lineComment?_append ht] at h ⊢
  split at h
  · rename_i b _
    cases hcut : cutBlockComment b (t ++ r) <;> simp [hcut, Except.map] at h
  · split at h
    · cases h
    · rename_i hline
      rw [if_neg hline]
      split at h
      · cases h
      · rename_i hnone
        rw [hagree.cutHeredoc?_eq_none ht hnone]
        rw [hg.string?_append ht] at h ⊢
        simpa using h

theorem IsOneLine.tokenMove_replace (hg : g.IsOneLine) (hagree : g.HeredocsAgree r r')
    {c : Char} {u : List Char} {m : Move} {cs : Option (List Context)}
    (hm : m.taken ++ u = c :: t) (hu : '\n' ∈ u)
    (h : g.tokenMove contexts c (t ++ r) ⟨[c], t ++ r, cs⟩ = .ok m) :
    g.tokenMove contexts c (t ++ r') ⟨[c], t ++ r', cs⟩ = .ok ⟨m.taken, u ++ r', m.contexts⟩ := by
  have ht : '\n' ∈ c :: t := hm ▸ List.mem_append_right _ hu
  obtain ⟨hnone, rfl⟩ | ⟨token, htoken, hempty, rfl⟩ := tokenMove_cases h
  · rw [← List.cons_append] at hnone
    obtain rfl : u = t := by simpa using hm
    rw [tokenMove, ← List.cons_append, hg.token?_eq_none hagree ht hnone]
  · have hrest : token.rest = u ++ r := by
      have happend := append_of_token? htoken
      rw [← List.cons_append, ← hm, List.append_assoc] at happend
      exact List.append_cancel_left happend
    rw [← List.cons_append] at htoken
    simp only [tokenMove, ← List.cons_append, hg.token?_replace hagree hm hu hrest htoken, hempty,
      Bool.false_eq_true, if_false]
    rfl

theorem stringMove_replace {q : StringSyntax} {outer : List Context} {c : Char} {u : List Char}
    (hq : '\n' ∉ q.close.toList) (hm : (stringMove q outer c (t ++ r)).taken ++ u = c :: t)
    (hu : '\n' ∈ u) (r' : List Char) :
    stringMove q outer c (t ++ r') = ⟨(stringMove q outer c (t ++ r)).taken, u ++ r',
      (stringMove q outer c (t ++ r)).contexts⟩ := by
  have ht : '\n' ∈ c :: t := hm ▸ List.mem_append_right _ hu
  have htemplate : opens "$\x7b" (c :: (t ++ r')) = opens "$\x7b" (c :: (t ++ r)) := by
    rw [← List.cons_append, ← List.cons_append, opens_append (by decide) ht,
      opens_append (by decide) ht]
  have hescape : ∀ {rest}, c :: (t ++ r).take 1 ++ rest = c :: t → '\n' ∈ rest →
      (t ++ r').take 1 = (t ++ r).take 1 ∧ (t ++ r').drop 1 = rest ++ r' := by
    intro rest hrest hmem
    cases t with
    | nil =>
      simp only [List.cons_append, List.cons.injEq, true_and, List.append_eq_nil_iff] at hrest
      rw [hrest.2] at hmem
      cases hmem
    | cons d t => simpa using hrest.symm
  unfold stringMove at hm ⊢
  rw [htemplate]
  cases hclose : after? q.close (c :: (t ++ r)) with
  | some rest =>
    simp only [hclose] at hm ⊢
    rw [← List.cons_append, ← hm, List.append_assoc, after?, Text.afterPrefix?_append]
  | none =>
    have hnone : after? q.close (c :: (t ++ r')) = none := by
      rw [after?, ← List.cons_append, ← Option.not_isSome_iff_eq_none,
        Text.isSome_afterPrefix?_iff, Text.prefix_append_iff hq ht] at hclose ⊢
      exact hclose
    simp only [hclose, hnone] at hm ⊢
    split at hm
    · rename_i hc
      obtain ⟨htake, hdrop⟩ := hescape hm hu
      rw [if_pos hc, if_pos hc, htake, hdrop]
    · rename_i hc
      rw [if_neg hc, if_neg hc]
      split at hm
      · rename_i hopens
        obtain ⟨htake, hdrop⟩ := hescape hm hu
        rw [if_pos hopens, if_pos hopens, htake, hdrop]
      · rename_i hopens
        rw [if_neg hopens, if_neg hopens]
        split at hm
        · rename_i hfeed
          obtain rfl : u = c :: t := by simpa [hfeed] using hm
          rw [if_pos hfeed, if_pos hfeed]
          rfl
        · rename_i hfeed
          rw [if_neg hfeed, if_neg hfeed]
          simpa using hm.symm

/-- A move within a line is told by the text of the line. -/
theorem IsOneLine.move_replace (hg : g.IsOneLine) (hagree : g.HeredocsAgree r r') {m : Move}
    {u : List Char}
    (hadmits : ∀ x ∈ contexts, g.Admits x) (hm : m.taken ++ u = t) (hu : '\n' ∈ u)
    (h : g.move contexts (t ++ r) = .ok m) :
    g.move contexts (t ++ r') = .ok ⟨m.taken, u ++ r', m.contexts⟩ := by
  obtain ⟨c, t, rfl⟩ := List.exists_cons_of_ne_nil
    (List.ne_nil_of_mem (hm ▸ List.mem_append_right _ hu))
  rw [List.cons_append] at h ⊢
  cases contexts with
  | nil =>
    simp only [move] at h ⊢
    split at h
    · rename_i hfeed
      cases h
      simp only [List.cons_append, List.nil_append, List.cons.injEq, true_and] at hm
      rw [if_pos hfeed, hm]
    · rename_i hfeed
      rw [if_neg hfeed, hg.tokenMove_replace hagree hm hu h]
  | cons context outer =>
    cases context with
    | string q =>
      simp only [move, Except.ok.injEq] at h ⊢
      subst h
      exact stringMove_replace (hg.close q (hadmits _ List.mem_cons_self)) hm hu r'
    | interpolation n => exact hg.tokenMove_replace hagree hm hu h

/-- A line of code is told by its own text: what follows the line is not looked at. -/
theorem IsOneLine.cutCodeLine_replace (hg : g.IsOneLine) (hagree : g.HeredocsAgree r r')
    (hadmits : ∀ x ∈ contexts, g.Admits x)
    (h : g.cutCodeLine contexts before (t ++ r) = .ok (before.reverse ++ t, r)) (hr : r ≠ []) :
    g.cutCodeLine contexts before (t ++ r') = .ok (before.reverse ++ t, r') := by
  generalize hs : t ++ r = s at h
  fun_induction cutCodeLine g contexts before s generalizing t with
  | case1 => cases h
  | case2 contexts before s m hmove hend =>
    obtain ⟨hline, hrest⟩ := Prod.mk.inj (Except.ok.inj h)
    obtain rfl : m.taken = t := by simpa [List.reverseAux_eq] using hline
    rcases move_ends hmove hend with hnil | ⟨rfl, htaken⟩
    · exact absurd (hrest.symm.trans hnil) hr
    · rw [htaken, cutCodeLine]
      simp [move]
  | case3 contexts before s m hmove cs hcs ih =>
    obtain ⟨u, hline, happend, hends⟩ := exists_taken_of_cutCodeLine h
    have htaken : m.taken ++ u = t := by
      simpa [List.reverseAux_eq] using hline.symm
    subst hs
    have hstep := hg.move_replace hagree hadmits htaken (hends hr).mem hmove
    rw [hline] at h ⊢
    rw [cutCodeLine_of_move hstep hcs]
    exact ih (admits_move hadmits hmove hcs) happend h

end LiterateSync.Grammar
