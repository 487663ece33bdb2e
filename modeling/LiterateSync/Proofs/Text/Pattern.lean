import LiterateSync.Proofs.Text.Search
import LiterateSync.Text.Pattern.Basic

namespace LiterateSync.Text

/-- Whether a part takes no line feed. -/
def PatternPart.isLineBound : PatternPart → Bool
  | .one chars => !chars.contains '\n'
  | .times part _ _ _ => part.isLineBound

/-- Whether a pattern takes no line feed. -/
def Pattern.isLineBound (p : Pattern) : Bool :=
  p.all PatternPart.isLineBound

/-- Whether no line feed is taken in a given way. -/
def PatternWay.IsLineBound : PatternWay → Prop
  | .stop => True
  | .take chars rest => chars.contains '\n' = false ∧ Pattern.isLineBound rest = true

namespace PatternWay

variable {next : Pattern} {round : List PatternWay} {greedy : Bool}

theorem mem_of_mem_prune {way : PatternWay} {ways : List PatternWay} (h : way ∈ prune ways) :
    way ∈ ways := by
  induction ways with
  | nil => cases h
  | cons first ways ih =>
    rw [prune, List.foldr_cons] at h
    rcases List.mem_cons.1 h with rfl | h
    · exact List.mem_cons_self
    · exact List.mem_cons_of_mem first (ih (List.mem_of_mem_filter h))

theorem isLineBound_choose (hround : ∀ way ∈ round, way.IsLineBound) :
    ∀ way ∈ choose greedy round, way.IsLineBound := by
  intro way hway
  rw [choose] at hway
  have hmem : way ∈ round ∨ way = .stop := by
    split at hway <;> simpa [or_comm] using hway
  rcases hmem with hmem | rfl
  · exact hround way hmem
  · trivial

theorem isLineBound_before {idle : Unit → List PatternWay} (hnext : next.isLineBound = true)
    (hround : ∀ way ∈ round, way.IsLineBound) (hidle : ∀ way ∈ idle (), way.IsLineBound) :
    ∀ way ∈ before next round idle, way.IsLineBound := by
  intro way hway
  obtain ⟨first, hfirst, hway⟩ := List.mem_flatMap.1 hway
  cases first with
  | stop => exact hidle way hway
  | take chars rest =>
    obtain rfl := List.mem_singleton.1 hway
    obtain ⟨hchars, hrest⟩ := hround _ hfirst
    refine ⟨hchars, ?_⟩
    rw [Pattern.isLineBound, List.all_append, Bool.and_eq_true]
    exact ⟨hrest, hnext⟩

theorem isLineBound_after? {way : PatternWay} {c : Char} {p : Pattern} (hway : way.IsLineBound)
    (h : way.after? c = some p) : p.isLineBound = true ∧ c ≠ '\n' := by
  cases way with
  | stop => cases h
  | take chars rest =>
    rw [after?] at h
    split at h
    · rename_i hc
      cases h
      refine ⟨hway.2, ?_⟩
      rintro rfl
      rw [hway.1] at hc
      cases hc
    · cases h

end PatternWay

open PatternWay

theorem PatternPart.isLineBound_repeated {part : PatternPart} (hpart : part.isLineBound = true)
    (least : Nat) (most : Option Nat) (greedy : Bool) :
    (part.repeated least most greedy).isLineBound = true := by
  rw [repeated]
  split
  · rfl
  · simpa [Pattern.isLineBound, isLineBound] using hpart

theorem PatternPart.isLineBound_unbounded (part : PatternPart) {round : List PatternWay}
    {greedy : Bool} (hpart : part.isLineBound = true) (hround : ∀ way ∈ round, way.IsLineBound)
    (least : Nat) : ∀ way ∈ part.unbounded round greedy least, way.IsLineBound := by
  have hidle : ∀ way ∈ [PatternWay.stop], way.IsLineBound := by simp [PatternWay.IsLineBound]
  fun_induction PatternPart.unbounded part round greedy least with
  | case1 =>
    exact isLineBound_choose (isLineBound_before (isLineBound_repeated hpart _ _ _) hround hidle)
  | case2 => exact isLineBound_before (isLineBound_repeated hpart _ _ _) hround hidle
  | case3 least ih =>
    refine isLineBound_before (isLineBound_repeated hpart _ _ _) hround ?_
    split
    · exact hidle
    · exact ih

theorem PatternPart.isLineBound_bounded (part : PatternPart) {round : List PatternWay}
    {greedy : Bool} (hpart : part.isLineBound = true) (hround : ∀ way ∈ round, way.IsLineBound)
    (least most : Nat) : ∀ way ∈ part.bounded round greedy least most, way.IsLineBound := by
  have hidle : ∀ way ∈ [PatternWay.stop], way.IsLineBound := by simp [PatternWay.IsLineBound]
  fun_induction PatternPart.bounded part round greedy least most with
  | case1 => exact hidle
  | case2 most ih =>
    refine isLineBound_choose (isLineBound_before (isLineBound_repeated hpart _ _ _) hround ?_)
    split
    · exact hidle
    · exact ih
  | case3 least most ih =>
    refine isLineBound_before (isLineBound_repeated hpart _ _ _) hround ?_
    split
    · exact hidle
    · exact ih

theorem PatternPart.isLineBound_ways {part : PatternPart} (hpart : part.isLineBound = true) :
    ∀ way ∈ part.ways, way.IsLineBound := by
  induction part with
  | one chars =>
    intro way hway
    obtain rfl := List.mem_singleton.1 hway
    exact ⟨by simpa [isLineBound] using hpart, rfl⟩
  | times part least most greedy ih =>
    intro way hway
    have hround := ih hpart
    cases most with
    | none =>
      rw [ways] at hway
      exact part.isLineBound_unbounded hpart hround least way (mem_of_mem_prune hway)
    | some most =>
      rw [ways] at hway
      exact part.isLineBound_bounded hpart hround least most way (mem_of_mem_prune hway)

theorem Pattern.isLineBound_ways {p : Pattern} (hp : p.isLineBound = true) :
    ∀ way ∈ p.ways, way.IsLineBound := by
  induction p with
  | nil => simp [ways, PatternWay.IsLineBound]
  | cons part p ih =>
    rw [Pattern.isLineBound, List.all_cons, Bool.and_eq_true] at hp
    exact isLineBound_before hp.2 (PatternPart.isLineBound_ways hp.1) (ih hp.2)

/-- The ways that a search goes on with behind a character, of which there are none behind a
    line feed. -/
theorem PatternWay.isLineBound_next {ways : List PatternWay} {c : Char} {ends : Bool}
    (hways : ∀ way ∈ ways, way.IsLineBound)
    (hsome : (if ends then ways.takeWhile (· ≠ .stop) else ways).filterMap (·.after? c) ≠ []) :
    c ≠ '\n' ∧ ∀ way ∈ prune (((if ends then ways.takeWhile (· ≠ .stop) else ways).filterMap
      (·.after? c)).flatMap Pattern.ways), way.IsLineBound := by
  have hleft : ∀ p ∈ (if ends then ways.takeWhile (· ≠ .stop) else ways).filterMap (·.after? c),
      p.isLineBound = true ∧ c ≠ '\n' := by
    intro p hp
    obtain ⟨way, hway, hafter⟩ := List.mem_filterMap.1 hp
    refine isLineBound_after? (hways way ?_) hafter
    split at hway
    · exact (List.takeWhile_prefix _).subset hway
    · exact hway
  obtain ⟨p, hp⟩ := List.exists_mem_of_ne_nil _ hsome
  refine ⟨(hleft p hp).2, fun way hway => ?_⟩
  obtain ⟨p, hp, hway⟩ := List.mem_flatMap.1 (mem_of_mem_prune hway)
  exact Pattern.isLineBound_ways (hleft p hp).1 way hway

namespace Pattern

variable {suffix s : List Char} {ways : List PatternWay} {taken : Nat} {found : Option Nat}

/-- A search with a pattern that takes no line feed ends at the first line feed. -/
theorem search_append (hsuffix : '\n' ∉ suffix) (hways : ∀ way ∈ ways, way.IsLineBound)
    (hs : '\n' ∈ s) (r : List Char) :
    search suffix taken found ways (s ++ r) = search suffix taken found ways s := by
  induction s generalizing ways taken found with
  | nil => cases hs
  | cons c s ih =>
    have hstarts : (afterPrefix? suffix (c :: s ++ r)).isSome =
        (afterPrefix? suffix (c :: s)).isSome := by
      rw [Bool.eq_iff_iff, isSome_afterPrefix?_iff, isSome_afterPrefix?_iff,
        prefix_append_iff hsuffix hs]
    rw [List.cons_append, search, search, ← List.cons_append, hstarts]
    split
    · rfl
    · rename_i patterns hsome
      obtain ⟨hc, hnext⟩ := PatternWay.isLineBound_next hways hsome
      exact ih hnext (List.mem_of_ne_of_mem (Ne.symm hc) hs)

/-- A pattern that takes no line feed leaves the first one. -/
theorem mem_drop_of_search {n : Nat} (hways : ∀ way ∈ ways, way.IsLineBound) (hs : '\n' ∈ s)
    (h : search suffix taken found ways s = some n) :
    found = some n ∨ ∃ k, n = taken + k ∧ '\n' ∈ s.drop k := by
  induction s generalizing ways taken found with
  | nil => cases hs
  | cons c s ih =>
    have hfound : ∀ ends : Bool, (if ends then some taken else found) = some n →
        found = some n ∨ ∃ k, n = taken + k ∧ '\n' ∈ (c :: s).drop k := by
      intro ends hn
      split at hn
      · cases hn
        exact .inr ⟨0, rfl, hs⟩
      · exact .inl hn
    rw [search] at h
    split at h
    · exact hfound _ h
    · rename_i patterns hsome
      obtain ⟨hc, hnext⟩ := PatternWay.isLineBound_next hways hsome
      rcases ih hnext (List.mem_of_ne_of_mem (Ne.symm hc) hs) h with hn | ⟨k, rfl, hk⟩
      · exact hfound _ hn
      · exact .inr ⟨k + 1, by omega, hk⟩

/-- A search finds no more than was found before, or a place of the text that the suffix
    follows. -/
theorem search_cases (suffix : List Char) (taken : Nat) (found : Option Nat)
    (ways : List PatternWay) (s : List Char) :
    search suffix taken found ways s = found ∨
      ∃ k ≤ s.length, search suffix taken found ways s = some (taken + k) ∧
        suffix <+: s.drop k := by
  have hfound : ∀ (found : Option Nat) (s : List Char) (x : Option Nat),
      x = (if ways.contains .stop && (afterPrefix? suffix s).isSome then some taken else found) →
      x = found ∨ ∃ k ≤ s.length, x = some (taken + k) ∧ suffix <+: s.drop k := by
    rintro found s x rfl
    split
    · rename_i hends
      rw [Bool.and_eq_true, isSome_afterPrefix?_iff] at hends
      exact .inr ⟨0, Nat.zero_le _, rfl, hends.2⟩
    · exact .inl rfl
  cases s with
  | nil => exact hfound _ _ _ (by rw [search])
  | cons c s =>
    rw [search]
    split
    · exact hfound _ _ _ rfl
    · obtain hsame | ⟨k, hle, hk, hsuffix⟩ := search_cases suffix (taken + 1) _ _ s
      · exact hfound _ _ _ hsame
      · refine .inr ⟨k + 1, Nat.succ_le_succ hle, ?_, hsuffix⟩
        rw [hk, Nat.add_assoc, Nat.add_comm 1]

/-- Where a way ends and the suffix follows, a search finds that place or a later one. -/
theorem le_search_of_ends (found : Option Nat)
    (hends : (ways.contains .stop && (afterPrefix? suffix s).isSome) = true) :
    ∃ k, search suffix taken found ways s = some (taken + k) := by
  cases s with
  | nil =>
    rw [search, if_pos hends]
    exact ⟨0, rfl⟩
  | cons c s =>
    rw [search]
    simp only [hends, if_true]
    split
    · exact ⟨0, rfl⟩
    · obtain hsame | ⟨k, -, hk, -⟩ := search_cases suffix (taken + 1) (some taken) _ s
      · exact ⟨0, hsame⟩
      · exact ⟨k + 1, by rw [hk]; congr 1; omega⟩

/-- Whether all that a search finds in a text lies with its suffix within a start of the text. -/
def Fits (suffix : List Char) (taken : Nat) (found : Option Nat) (ways : List PatternWay)
    (s r : List Char) : Prop :=
  ∀ n, search suffix taken found ways (s ++ r) = some n → n + suffix.length ≤ taken + s.length

theorem Fits.prefix_iff {r : List Char} (h : Fits suffix taken found ways s r)
    (hstop : ways.contains .stop = true) : suffix <+: s ++ r ↔ suffix <+: s := by
  refine ⟨fun hsuffix => ?_, (·.trans (List.prefix_append s r))⟩
  obtain ⟨k, hk⟩ : ∃ k, search suffix taken found ways (s ++ r) = some (taken + k) :=
    le_search_of_ends found
      (Bool.and_eq_true_iff.2 ⟨hstop, isSome_afterPrefix?_iff.2 hsuffix⟩)
  have hlen := h _ hk
  exact List.prefix_of_prefix_length_le hsuffix (List.prefix_append s r) (by omega)

theorem Fits.ends_eq {r : List Char} (h : Fits suffix taken found ways s r) :
    (ways.contains .stop && (afterPrefix? suffix (s ++ r)).isSome) =
      (ways.contains .stop && (afterPrefix? suffix s).isSome) := by
  cases hstop : ways.contains .stop with
  | false => rfl
  | true =>
    rw [Bool.true_and, Bool.true_and, Bool.eq_iff_iff, isSome_afterPrefix?_iff,
      isSome_afterPrefix?_iff, h.prefix_iff hstop]

/-- What a search finds that lies with its suffix within a start of the text is found in that start
    alone. -/
theorem Fits.search_eq {r : List Char} (h : Fits suffix taken found ways s r) :
    search suffix taken found ways s = search suffix taken found ways (s ++ r) := by
  induction s generalizing taken found ways with
  | nil =>
    have hends := h.ends_eq
    cases r with
    | nil => rfl
    | cons c r =>
      rw [Fits, List.nil_append, search] at h
      rw [List.nil_append] at hends ⊢
      rw [search, search]
      simp only [hends] at h ⊢
      generalize (ways.contains .stop && (afterPrefix? suffix []).isSome) = ends at h ⊢
      cases hnext : (if ends then ways.takeWhile (· ≠ .stop) else ways).filterMap (·.after? c) with
      | nil => rfl
      | cons pattern patterns =>
        simp only [hnext] at h ⊢
        obtain hsame | ⟨k, -, hk, -⟩ := search_cases suffix (taken + 1)
          (if ends then some taken else found)
          (prune ((pattern :: patterns).flatMap Pattern.ways)) r
        · exact hsame.symm
        · -- what is found behind the start does not fit
          have hlen := h _ hk
          simp only [List.length_nil] at hlen
          omega
  | cons c s ih =>
    have hends := h.ends_eq
    rw [Fits, List.cons_append, search] at h
    rw [List.cons_append] at hends ⊢
    rw [search, search]
    simp only [hends] at h ⊢
    generalize (ways.contains .stop && (afterPrefix? suffix (c :: s)).isSome) = ends at h ⊢
    cases hnext : (if ends then ways.takeWhile (· ≠ .stop) else ways).filterMap (·.after? c) with
    | nil => rfl
    | cons pattern patterns =>
      simp only [hnext] at h ⊢
      refine ih fun n hn => ?_
      have hlen := h n hn
      rw [List.length_cons] at hlen
      omega

/-- A match that leaves the end of a text is found where nothing stands behind the start. -/
theorem matchBefore?_cut {p : Pattern} {ident body r : List Char}
    (h : p.matchBefore? suffix (s ++ r) = some (ident, body ++ r)) :
    p.matchBefore? suffix s = some (ident, body) := by
  have hs : ident ++ suffix ++ body = s := by
    have happend := append_of_matchBefore? h
    rw [← List.append_assoc] at happend
    exact List.append_cancel_right happend
  obtain ⟨n, hn, h⟩ := Option.bind_eq_some_iff.1 h
  obtain ⟨behind, hafter, heq⟩ := Option.bind_eq_some_iff.1 h
  obtain ⟨hident, rfl⟩ := Prod.mk.inj (Option.some.inj heq)
  have hlen : n = ident.length := by
    obtain hnone | ⟨k, hle, hk, -⟩ := search_cases suffix 0 none (prune p.ways) (s ++ r)
    · rw [hn] at hnone
      cases hnone
    · rw [hn, Option.some.injEq, Nat.zero_add] at hk
      rw [← hident, List.length_take, hk, Nat.min_eq_left hle]
  have hfits : Fits suffix 0 none (prune p.ways) s r := by
    intro n' hn'
    rw [hn] at hn'
    cases hn'
    simp only [← hs, List.length_append]
    omega
  rw [matchBefore?, hfits.search_eq, hn, ← hs, hlen]
  simp [List.append_assoc]

/-- What does not begin a text does not begin a start of the text. -/
theorem matchBefore?_eq_none_of_append {p : Pattern} {r : List Char}
    (h : p.matchBefore? suffix (s ++ r) = none) : p.matchBefore? suffix s = none := by
  have hnone : search suffix 0 none (prune p.ways) (s ++ r) = none := by
    obtain hnone | ⟨k, -, hk, hsuffix⟩ := search_cases suffix 0 none (prune p.ways) (s ++ r)
    · exact hnone
    · obtain ⟨behind, hbehind⟩ := Option.isSome_iff_exists.1 (isSome_afterPrefix?_iff.2 hsuffix)
      rw [matchBefore?, hk, Nat.zero_add, Option.bind_eq_bind, Option.bind_some, hbehind] at h
      cases h
  have hfits : Fits suffix 0 none (prune p.ways) s r := fun n hn => by
    rw [hnone] at hn
    cases hn
  rw [matchBefore?, hfits.search_eq, hnone]
  rfl

/-- A match of a pattern that takes no line feed lies within the first line. -/
theorem matchBefore?_append {p : Pattern} (hp : p.isLineBound = true) (hsuffix : '\n' ∉ suffix)
    (hs : '\n' ∈ s) (r : List Char) :
    p.matchBefore? suffix (s ++ r) =
      (p.matchBefore? suffix s).map fun (ident, body) => (ident, body ++ r) := by
  have hways : ∀ way ∈ prune p.ways, way.IsLineBound := fun way hway =>
    isLineBound_ways hp way (mem_of_mem_prune hway)
  rw [matchBefore?, matchBefore?, search_append hsuffix hways hs]
  cases hn : search suffix 0 none (prune p.ways) s with
  | none => rfl
  | some n =>
    obtain hnone | ⟨k, hk, hmem⟩ := mem_drop_of_search hways hs hn
    · cases hnone
    · obtain rfl : n = k := hk.trans (Nat.zero_add k)
      have hlen : n ≤ s.length := by
        by_contra hlt
        rw [List.drop_eq_nil_of_le (by omega)] at hmem
        cases hmem
      simp only [Option.bind_eq_bind, Option.bind_some, List.drop_append_of_le_length hlen,
        List.take_append_of_le_length hlen]
      cases hafter : afterPrefix? suffix (s.drop n) with
      | none =>
        have hnot := hafter
        rw [← Option.not_isSome_iff_eq_none, isSome_afterPrefix?_iff,
          ← prefix_append_iff hsuffix hmem r] at hnot
        rw [afterPrefix?_eq_none hnot]
        rfl
      | some body =>
        rw [afterPrefix?_eq_some_iff.1 hafter, List.append_assoc, afterPrefix?_append]
        rfl

end Pattern

end LiterateSync.Text
