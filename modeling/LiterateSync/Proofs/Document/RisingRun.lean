import Mathlib.Data.List.Basic
import Mathlib.Data.List.Induction
import LiterateSync.Document.Subsequence

namespace LiterateSync.Subsequence

/-- A run that is kept with its end first: read backwards it rises, and it takes its pairs
    from `pairs` in their order. -/
structure IsRun (pairs run : List (Nat × Nat)) : Prop where
  sublist : run.reverse.Sublist pairs
  falling : run.Pairwise fun x y => y.2 < x.2

theorem IsRun.nil (pairs : List (Nat × Nat)) : IsRun pairs [] :=
  ⟨List.nil_sublist pairs, .nil⟩

theorem IsRun.append {pairs run : List (Nat × Nat)} (hrun : IsRun pairs run)
    (more : List (Nat × Nat)) : IsRun (pairs ++ more) run :=
  ⟨hrun.sublist.trans (List.sublist_append_left pairs more), hrun.falling⟩

/-- The end of a run is its greatest number, so a number above it is above all of them. -/
theorem IsRun.extend {pairs run : List (Nat × Nat)} {x : Nat × Nat} (hrun : IsRun pairs run)
    (hends : endsBelow run x = true) : IsRun (pairs ++ [x]) (x :: run) := by
  refine ⟨?_, List.pairwise_cons.2 ⟨fun y hy => ?_, hrun.falling⟩⟩
  · rw [List.reverse_cons]
    exact hrun.sublist.append (List.Sublist.refl [x])
  · cases run with
    | nil => cases hy
    | cons z run =>
      have hz : z.2 < x.2 := by simpa [endsBelow] using hends
      rcases List.mem_cons.1 hy with rfl | hy
      · exact hz
      · exact Nat.lt_trans ((List.pairwise_cons.1 hrun.falling).1 y hy) hz

/-- A run takes the last pair, and then extends another run by it, or does not. -/
theorem IsRun.cases_append_singleton {pairs run : List (Nat × Nat)} {x : Nat × Nat}
    (hrun : IsRun (pairs ++ [x]) run) :
    IsRun pairs run ∨ ∃ rest, run = x :: rest ∧ IsRun pairs rest ∧ endsBelow rest x = true := by
  have hsub : run.Sublist (x :: pairs.reverse) := by
    simpa using hrun.sublist.reverse
  have hback : ∀ {r : List (Nat × Nat)}, r.Sublist pairs.reverse → r.reverse.Sublist pairs :=
    fun hr => by simpa using hr.reverse
  cases hsub with
  | cons _ hsub => exact .inl ⟨hback hsub, hrun.falling⟩
  | cons_cons _ hsub =>
    rename_i rest
    obtain ⟨hbelow, hfalling⟩ := List.pairwise_cons.1 hrun.falling
    refine .inr ⟨rest, rfl, ⟨hback hsub, hfalling⟩, ?_⟩
    cases rest with
    | nil => rfl
    | cons y rest => simpa [endsBelow] using hbelow y List.mem_cons_self

/-- A pair that is dealt out ends a run that was there before, or one of its own. -/
theorem mem_deal {x : Nat × Nat} {previous run : List (Nat × Nat)}
    {runs : List (List (Nat × Nat))} (hprevious : endsBelow previous x = true)
    (h : run ∈ deal x previous runs) :
    run ∈ runs ∨ ∃ r ∈ previous :: runs, endsBelow r x = true ∧ run = x :: r := by
  induction runs generalizing previous with
  | nil =>
    rw [deal, List.mem_singleton] at h
    exact .inr ⟨previous, by simp, hprevious, h⟩
  | cons first runs ih =>
    rw [deal] at h
    split at h
    · rename_i hfirst
      rcases List.mem_cons.1 h with rfl | h
      · exact .inl (by simp)
      · rcases ih hfirst h with hmem | ⟨r, hr, hends, rfl⟩
        · exact .inl (List.mem_cons_of_mem first hmem)
        · exact .inr ⟨r, List.mem_cons_of_mem previous hr, hends, rfl⟩
    · rcases List.mem_cons.1 h with rfl | h
      · exact .inr ⟨previous, by simp, hprevious, rfl⟩
      · exact .inl (List.mem_cons_of_mem first h)

theorem risingRuns_append_singleton (pairs : List (Nat × Nat)) (x : Nat × Nat) :
    risingRuns (pairs ++ [x]) = deal x [] (risingRuns pairs) := by
  simp [risingRuns]

theorem isRun_of_mem_risingRuns {pairs run : List (Nat × Nat)} (h : run ∈ risingRuns pairs) :
    IsRun pairs run := by
  induction pairs using List.reverseRecOn generalizing run with
  | nil => cases h
  | append_singleton pairs x ih =>
    rw [risingRuns_append_singleton] at h
    rcases mem_deal rfl h with hmem | ⟨r, hr, hends, rfl⟩
    · exact (ih hmem).append [x]
    · rcases List.mem_cons.1 hr with rfl | hr
      · exact (IsRun.nil pairs).extend hends
      · exact (ih hr).extend hends

/-- What is chosen to stay where it is rises in its second numbers. -/
theorem exists_rising_eq_longestRising (pairs : List (Nat × Nat)) :
    ∃ run : List (Nat × Nat), run.Sublist pairs ∧ run.Pairwise (fun x y => x.2 < y.2) ∧
      longestRising pairs = run.map (·.1) := by
  have hrun : IsRun pairs ((risingRuns pairs).getLast?.getD []) := by
    cases hlast : (risingRuns pairs).getLast? with
    | none => exact IsRun.nil pairs
    | some run => exact isRun_of_mem_risingRuns (List.mem_of_getLast? hlast)
  refine ⟨_, hrun.sublist, List.pairwise_reverse.2 hrun.falling, ?_⟩
  rw [longestRising, List.map_reverse]

/-! ### No run is longer -/

@[simp] theorem endsBelow_cons {x y : Nat × Nat} {run : List (Nat × Nat)} :
    endsBelow (x :: run) y = true ↔ x.2 < y.2 := by
  simp [endsBelow]

/-- A run that ends below a number ends below any higher one. -/
theorem endsBelow_mono {x y : Nat × Nat} {run : List (Nat × Nat)} (hle : x.2 ≤ y.2)
    (h : endsBelow run x = true) : endsBelow run y = true := by
  cases run with
  | nil => rfl
  | cons z run =>
    rw [endsBelow_cons] at h ⊢
    exact Nat.lt_of_lt_of_le h hle

theorem le_of_endsBelow {x y : Nat × Nat} {run : List (Nat × Nat)}
    (hx : endsBelow run x = false) (hy : endsBelow run y = true) : x.2 < y.2 := by
  by_contra hle
  rw [endsBelow_mono (Nat.le_of_not_lt hle) hy] at hx
  cases hx

/-- Runs that each are longer by one pair than the one before and end no lower, where the first
    comes behind `previous`. -/
inductive Ladder : List (Nat × Nat) → List (List (Nat × Nat)) → Prop
  | nil (previous : List (Nat × Nat)) : Ladder previous []
  | cons {previous run : List (Nat × Nat)} {runs : List (List (Nat × Nat))}
    (length_eq : run.length = previous.length + 1)
    (ends : ∀ y, endsBelow run y = true → endsBelow previous y = true)
    (rest : Ladder run runs) : Ladder previous (run :: runs)

namespace Ladder

variable {x : Nat × Nat} {previous run : List (Nat × Nat)} {runs : List (List (Nat × Nat))}

theorem endsBelow_of_mem (h : Ladder previous runs) (hrun : run ∈ runs)
    (hx : endsBelow run x = true) : endsBelow previous x = true := by
  induction h with
  | nil => cases hrun
  | cons _ hends _ ih =>
    rcases List.mem_cons.1 hrun with rfl | hrun
    · exact hends x hx
    · exact hends x (ih hrun)

/-- The last run is the longest. -/
theorem length_le_getLast (h : Ladder previous runs) (hrun : run ∈ previous :: runs) :
    run.length ≤ (runs.getLast?.getD previous).length := by
  induction h generalizing run with
  | nil =>
    rw [List.mem_singleton] at hrun
    exact hrun ▸ Nat.le_refl _
  | cons hlength _ _ ih =>
    rw [List.getLast?_cons, Option.getD_some]
    rcases List.mem_cons.1 hrun with rfl | hrun
    · have hnext := ih List.mem_cons_self
      omega
    · exact ih hrun

theorem deal (h : Ladder previous runs) (hx : endsBelow previous x = true) :
    Ladder previous (deal x previous runs) := by
  have hends : ∀ {r : List (Nat × Nat)} (y : Nat × Nat), endsBelow r x = true →
      endsBelow (x :: r) y = true → endsBelow r y = true :=
    fun y hr hy => endsBelow_mono (Nat.le_of_lt (endsBelow_cons.1 hy)) hr
  induction h with
  | nil previous => exact .cons rfl (fun y => hends y hx) (.nil _)
  | cons hlength hrun hrest ih =>
    rw [Subsequence.deal]
    split
    · rename_i hbelow
      exact .cons hlength hrun (ih hbelow)
    · rename_i hbelow
      refine .cons rfl (fun y => hends y hx) ?_
      cases hrest with
      | nil => exact .nil _
      | cons hlength' hnext hrest =>
        refine .cons (by simp [hlength', hlength]) (fun y hy => ?_) hrest
        exact endsBelow_cons.2 (le_of_endsBelow (by simpa using hbelow) (hnext y hy))

/-- For each run there is one of its length behind the dealing that ends no higher. -/
theorem exists_mem_deal (hrun : run ∈ runs) (x : Nat × Nat) (previous : List (Nat × Nat))
    (h : Ladder previous runs) :
    ∃ r ∈ Subsequence.deal x previous runs, r.length = run.length ∧
      ∀ y, endsBelow run y = true → endsBelow r y = true := by
  induction h with
  | nil => cases hrun
  | @cons previous first runs hlength _ _ ih =>
    rw [Subsequence.deal]
    split
    · rcases List.mem_cons.1 hrun with rfl | hrun
      · exact ⟨run, List.mem_cons_self, rfl, fun _ => id⟩
      · obtain ⟨r, hr, hsame⟩ := ih hrun
        exact ⟨r, List.mem_cons_of_mem _ hr, hsame⟩
    · rename_i hbelow
      rcases List.mem_cons.1 hrun with rfl | hrun
      · refine ⟨x :: previous, List.mem_cons_self, hlength.symm, fun y hy => ?_⟩
        exact endsBelow_cons.2 (le_of_endsBelow (by simpa using hbelow) hy)
      · exact ⟨run, List.mem_cons_of_mem _ hrun, rfl, fun _ => id⟩

/-- For each run that the pair extends there is one behind the dealing that is longer by one, and
    ends no higher than the pair. -/
theorem exists_mem_deal_of_endsBelow (h : Ladder previous runs) (hrun : run ∈ previous :: runs)
    (hbelow : endsBelow run x = true) :
    ∃ r ∈ Subsequence.deal x previous runs, r.length = run.length + 1 ∧
      ∀ y, x.2 < y.2 → endsBelow r y = true := by
  induction h with
  | nil previous =>
    rw [List.mem_singleton] at hrun
    exact ⟨x :: previous, List.mem_singleton_self _, by rw [hrun]; rfl, fun y => endsBelow_cons.2⟩
  | @cons previous first runs hlength hends hrest ih =>
    rw [Subsequence.deal]
    split
    · rename_i hfirst
      rcases List.mem_cons.1 hrun with rfl | hrun
      · exact ⟨first, List.mem_cons_self, hlength,
          fun y hy => endsBelow_mono (Nat.le_of_lt hy) hfirst⟩
      · obtain ⟨r, hr, hlonger⟩ := ih hrun
        exact ⟨r, List.mem_cons_of_mem _ hr, hlonger⟩
    · rename_i hfirst
      rcases List.mem_cons.1 hrun with rfl | hrun
      · exact ⟨x :: run, List.mem_cons_self, rfl, fun y => endsBelow_cons.2⟩
      · -- The runs behind the first one end no lower, so the pair extends none of them.
        rcases List.mem_cons.1 hrun with rfl | hrun
        · exact absurd hbelow hfirst
        · exact absurd (hrest.endsBelow_of_mem hrun hbelow) hfirst

end Ladder

theorem ladder_risingRuns (pairs : List (Nat × Nat)) : Ladder [] (risingRuns pairs) := by
  induction pairs using List.reverseRecOn with
  | nil => exact .nil []
  | append_singleton pairs x ih =>
    rw [risingRuns_append_singleton]
    exact ih.deal rfl

/-- The runs that are kept are the best of their lengths: for each run of the pairs one of them has
    its length and ends no higher. -/
theorem IsRun.exists_risingRun {pairs run : List (Nat × Nat)} (h : IsRun pairs run) :
    ∃ r ∈ [] :: risingRuns pairs, r.length = run.length ∧
      ∀ y, endsBelow run y = true → endsBelow r y = true := by
  induction pairs using List.reverseRecOn generalizing run with
  | nil =>
    have hnil : run = [] := by simpa using h.sublist
    exact ⟨[], List.mem_cons_self, by rw [hnil], fun _ _ => rfl⟩
  | append_singleton pairs x ih =>
    rw [risingRuns_append_singleton]
    have hladder := ladder_risingRuns pairs
    rcases h.cases_append_singleton with hrun | ⟨rest, rfl, hrest, hbelow⟩
    · obtain ⟨r, hr, hlength, hends⟩ := ih hrun
      rcases List.mem_cons.1 hr with rfl | hr
      · exact ⟨[], List.mem_cons_self, hlength, hends⟩
      · obtain ⟨better, hbetter, hsame, hlower⟩ := Ladder.exists_mem_deal hr x [] hladder
        exact ⟨better, List.mem_cons_of_mem _ hbetter, hsame.trans hlength,
          fun y hy => hlower y (hends y hy)⟩
    · obtain ⟨r, hr, hlength, hends⟩ := ih hrest
      obtain ⟨longer, hlonger, hmore, hlow⟩ :=
        hladder.exists_mem_deal_of_endsBelow hr (hends x hbelow)
      exact ⟨longer, List.mem_cons_of_mem _ hlonger, by rw [hmore, hlength, List.length_cons],
        fun y hy => hlow y (endsBelow_cons.1 hy)⟩

/-- No rising part of the pairs is longer than the one that is chosen to stay. -/
theorem length_le_longestRising {pairs run : List (Nat × Nat)} (hsub : run.Sublist pairs)
    (hrising : run.Pairwise fun x y => x.2 < y.2) :
    run.length ≤ (longestRising pairs).length := by
  have hrun : IsRun pairs run.reverse :=
    ⟨by rwa [List.reverse_reverse], List.pairwise_reverse.2 hrising⟩
  obtain ⟨r, hr, hlength, -⟩ := hrun.exists_risingRun
  have hlast := (ladder_risingRuns pairs).length_le_getLast hr
  rw [hlength, List.length_reverse] at hlast
  simpa [longestRising] using hlast

/-- A pair above the ends of all runs makes the longest of them longer. -/
theorem deal_of_endsBelow {x : Nat × Nat} {runs : List (List (Nat × Nat))}
    (hruns : ∀ run ∈ runs, endsBelow run x = true) (previous : List (Nat × Nat)) :
    deal x previous runs = runs ++ [x :: runs.getLast?.getD previous] := by
  induction runs generalizing previous with
  | nil => rfl
  | cons run runs ih =>
    rw [deal, if_pos (hruns run (by simp)), ih fun r hr => hruns r (List.mem_cons_of_mem run hr)]
    cases runs with
    | nil => rfl
    | cons next runs => simp [List.getLast?_cons]

/-- Pairs that rise as they are all stay. -/
theorem longestRising_of_rising {pairs : List (Nat × Nat)}
    (h : pairs.Pairwise fun x y => x.2 < y.2) : longestRising pairs = pairs.map (·.1) := by
  have hlast : (risingRuns pairs).getLast?.getD [] = pairs.reverse := by
    induction pairs using List.reverseRecOn with
    | nil => rfl
    | append_singleton pairs x ih =>
      obtain ⟨hpairs, -, hx⟩ := List.pairwise_append.1 h
      have hends : ∀ run ∈ risingRuns pairs, endsBelow run x = true := by
        intro run hrun
        cases run with
        | nil => rfl
        | cons y run =>
          have hy : y ∈ pairs := (isRun_of_mem_risingRuns hrun).sublist.subset (by simp)
          simpa [endsBelow] using hx y hy x (by simp)
      rw [risingRuns_append_singleton, deal_of_endsBelow hends]
      simp [ih hpairs]
  rw [longestRising, hlast, List.map_reverse, List.reverse_reverse]

end LiterateSync.Subsequence
