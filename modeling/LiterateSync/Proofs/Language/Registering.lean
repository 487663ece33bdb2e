import LiterateSync.Settings.Load
import Mathlib.Data.List.Induction
import Mathlib.Data.List.Nodup
import LiterateSync.Text.Pattern.Library

namespace LiterateSync

/-- Whether a profile is the last of those that were registered under its name. -/
def IsCurrent (history : List Profile) (p : Profile) : Prop :=
  ∃ before after, history = before ++ p :: after ∧ ∀ q ∈ after, q.id ≠ p.id

/-- Whether a profile that claims an extension was registered later than all other ones that are
    current and claim it. -/
def IsLatest (history : List Profile) (ext : String) (p : Profile) : Prop :=
  ∃ before after, history = before ++ p :: after ∧ (∀ q ∈ after, q.id ≠ p.id) ∧
    p.claims ext = true ∧ ∀ q ∈ after, IsCurrent history q → q.claims ext = false

/-- The number of profiles that were registered before a name was used. -/
def firstAt (history : List Profile) (id : String) : Nat :=
  history.findIdx (·.id = id)

variable {history before after : List Profile} {p q : Profile} {id ext : String}

theorem IsCurrent.mem (h : IsCurrent history p) : p ∈ history := by
  obtain ⟨before, after, rfl, -⟩ := h
  exact List.mem_append_right _ List.mem_cons_self

theorem IsLatest.isCurrent (h : IsLatest history ext p) : IsCurrent history p := by
  obtain ⟨before, after, hhistory, hafter, -⟩ := h
  exact ⟨before, after, hhistory, hafter⟩

theorem isCurrent_concat :
    IsCurrent (history ++ [p]) q ↔ q = p ∨ q.id ≠ p.id ∧ IsCurrent history q := by
  constructor
  · rintro ⟨before, after, heq, hafter⟩
    rcases List.eq_nil_or_concat' after with rfl | ⟨after, last, rfl⟩
    · exact .inl (List.append_inj_right' heq rfl |> List.singleton_inj.1).symm
    · rw [← List.cons_append, ← List.append_assoc] at heq
      obtain ⟨rfl, hlast⟩ := List.append_inj' heq rfl
      obtain rfl := List.singleton_inj.1 hlast
      refine .inr ⟨(hafter p (by simp)).symm, before, after, rfl, fun r hr => hafter r ?_⟩
      exact List.mem_append_left _ hr
  · rintro (rfl | ⟨hne, before, after, rfl, hafter⟩)
    · exact ⟨history, [], rfl, by simp⟩
    · refine ⟨before, after ++ [p], by simp, fun r hr => ?_⟩
      rcases List.mem_append.1 hr with hr | hr
      · exact hafter r hr
      · rw [List.mem_singleton.1 hr]
        exact hne.symm

/-- A name that was used has a current profile. -/
theorem exists_isCurrent (h : ∃ q ∈ history, q.id = id) : ∃ p, IsCurrent history p ∧ p.id = id := by
  induction history using List.reverseRecOn with
  | nil => simp at h
  | append_singleton history last ih =>
    simp only [isCurrent_concat]
    by_cases hlast : last.id = id
    · exact ⟨last, .inl rfl, hlast⟩
    · obtain ⟨q, hq, hid⟩ := h
      have hmem : q ∈ history := by
        rcases List.mem_append.1 hq with hq | hq
        · exact hq
        · rw [List.mem_singleton.1 hq] at hid
          exact absurd hid hlast
      obtain ⟨p, hp, rfl⟩ := ih ⟨q, hmem, hid⟩
      exact ⟨p, .inr ⟨Ne.symm hlast, hp⟩, rfl⟩

theorem firstAt_lt_length (h : ∃ q ∈ history, q.id = id) : firstAt history id < history.length := by
  obtain ⟨q, hq, hid⟩ := h
  exact List.findIdx_lt_length_of_exists ⟨q, hq, by simpa using hid⟩

theorem length_le_firstAt (h : ∀ q ∈ before, q.id ≠ id) (after : List Profile) :
    before.length ≤ firstAt (before ++ after) id := by
  rw [firstAt, List.findIdx_append, if_neg (by simpa using h)]
  exact Nat.le_add_left _ _

theorem firstAt_append (h : ∃ q ∈ before, q.id = id) :
    firstAt (before ++ after) id = firstAt before id := by
  rw [firstAt, List.findIdx_append, if_pos (by simpa using h)]
  rfl

namespace Registry

variable {r : Registry}

@[simp] theorem profiles_register : (r.register p).profiles = put p r.profiles := rfl

theorem put_cases (p : Profile) (profiles : List Profile) :
    (put p profiles = profiles ++ [p] ∧ ∀ q ∈ profiles, q.id ≠ p.id) ∨
      ∃ before old after, profiles = before ++ old :: after ∧ old.id = p.id ∧
        put p profiles = before ++ p :: after := by
  induction profiles with
  | nil => exact .inl ⟨rfl, by simp⟩
  | cons q profiles ih =>
    rw [put]
    split_ifs with hq
    · exact .inr ⟨[], q, profiles, rfl, hq, rfl⟩
    · rcases ih with ⟨heq, hne⟩ | ⟨before, old, after, rfl, hold, heq⟩
      · exact .inl ⟨by rw [heq]; rfl, List.forall_mem_cons.2 ⟨hq, hne⟩⟩
      · exact .inr ⟨q :: before, old, after, rfl, hold, by rw [heq]; rfl⟩

/-- Whether a registry holds the current profiles of a history, by the first use of their names. -/
structure Reflects (r : Registry) (history : List Profile) : Prop where
  mem_profiles : ∀ p, p ∈ r.profiles ↔ IsCurrent history p
  order : r.ids.Pairwise fun a b => firstAt history a < firstAt history b

theorem Reflects.nodup (h : r.Reflects history) : r.ids.Nodup :=
  h.order.imp fun hlt heq => by simp [heq] at hlt

theorem Reflects.order_append (h : r.Reflects history) (after : List Profile) :
    r.ids.Pairwise fun a b => firstAt (history ++ after) a < firstAt (history ++ after) b := by
  refine h.order.imp_of_mem fun {a b} ha hb hlt => ?_
  have hused {c : String} (hc : c ∈ r.ids) : ∃ q ∈ history, q.id = c := by
    obtain ⟨q, hq, rfl⟩ := List.mem_map.1 hc
    exact ⟨q, ((h.mem_profiles q).1 hq).mem, rfl⟩
  rwa [firstAt_append (hused ha), firstAt_append (hused hb)]

theorem Reflects.register (h : r.Reflects history) (p : Profile) :
    (r.register p).Reflects (history ++ [p]) := by
  rcases put_cases p r.profiles with ⟨hput, hne⟩ | ⟨before, old, after, hprofiles, hold, hput⟩
  · -- no profile of the history has the name, since one of them would be current
    have hnew : ∀ q ∈ history, q.id ≠ p.id := fun q hq hid => by
      obtain ⟨current, hcurrent, hname⟩ := exists_isCurrent ⟨q, hq, hid⟩
      exact hne current ((h.mem_profiles current).2 hcurrent) hname
    refine ⟨fun q => ?_, ?_⟩
    · simp only [profiles_register, hput, List.mem_append, List.mem_singleton, isCurrent_concat,
        h.mem_profiles]
      exact ⟨fun hq => hq.symm.imp_right fun hq => ⟨hnew q hq.mem, hq⟩,
        fun hq => hq.symm.imp_left And.right⟩
    · simp only [ids, profiles_register, hput, List.map_append, List.map_singleton]
      refine List.pairwise_append.2 ⟨h.order_append [p], List.pairwise_singleton _ _, ?_⟩
      simp only [List.forall_mem_map, List.forall_mem_singleton]
      intro q hq
      have hused : ∃ s ∈ history, s.id = q.id := ⟨q, ((h.mem_profiles q).1 hq).mem, rfl⟩
      calc firstAt (history ++ [p]) q.id = firstAt history q.id := firstAt_append hused
        _ < history.length := firstAt_lt_length hused
        _ ≤ firstAt (history ++ [p]) p.id := length_le_firstAt hnew [p]
  · have hids : (r.register p).ids = r.ids := by
      rw [ids, ids, profiles_register, hput, hprofiles]
      simp only [List.map_append, List.map_cons, hold]
    refine ⟨fun q => ?_, hids ▸ h.order_append [p]⟩
    have hnodup := h.nodup
    simp only [ids, hprofiles, List.map_append, List.map_cons] at hnodup
    obtain ⟨-, hafter, hbefore⟩ := List.nodup_append.1 hnodup
    have hothers : ∀ s ∈ before ++ after, s.id ≠ p.id := by
      rw [← hold]
      intro s hs heq
      rcases List.mem_append.1 hs with hs | hs
      · exact hbefore s.id (List.mem_map_of_mem hs) old.id List.mem_cons_self heq
      · exact (List.nodup_cons.1 hafter).1 (heq ▸ List.mem_map_of_mem hs)
    rw [profiles_register, hput, isCurrent_concat, ← h.mem_profiles, hprofiles]
    simp only [List.mem_append, List.mem_cons] at hothers ⊢
    grind

/-- The registry after profiles were registered one after the other. -/
def registerAll (r : Registry) (calls : List Profile) : Registry :=
  calls.foldl register r

theorem Reflects.registerAll (h : r.Reflects history) (calls : List Profile) :
    (r.registerAll calls).Reflects (history ++ calls) := by
  induction calls generalizing r history with
  | nil => simpa [Registry.registerAll] using h
  | cons p calls ih => simpa [Registry.registerAll] using ih (h.register p)

theorem builtin_eq_registerAll : builtin = empty.registerAll Profile.builtin := by
  decide +kernel

/-- Each of the two registries that there are at first reflects its own profiles. -/
theorem reflects_profiles (hr : r = empty ∨ r = builtin) : r.Reflects r.profiles := by
  have hempty : empty.Reflects [] := ⟨fun p => ⟨by simp [empty], fun h => h.mem⟩, .nil⟩
  rcases hr with rfl | rfl
  · exact hempty
  · have hbuiltin := hempty.registerAll Profile.builtin
    rwa [← builtin_eq_registerAll] at hbuiltin

theorem Reflects.get (h : r.Reflects history) (id : String) :
    (∃ p, r.get id = .ok p ∧ IsCurrent history p ∧ p.id = id) ∨
      r.get id = .error (.unsupported id) ∧ ∀ q ∈ history, q.id ≠ id := by
  cases hfind : r.find? id with
  | some p =>
    have hmem := (h.mem_profiles p).1 (List.mem_of_find?_eq_some hfind)
    exact .inl ⟨p, by simp [Registry.get, hfind], hmem, by simpa using List.find?_some hfind⟩
  | none =>
    refine .inr ⟨by simp [Registry.get, hfind], fun q hq hid => ?_⟩
    obtain ⟨p, hp, hname⟩ := exists_isCurrent ⟨q, hq, hid⟩
    have hne := List.find?_eq_none.1 hfind p ((h.mem_profiles p).2 hp)
    exact hne (by simpa using hname)

/-- The profile for an extension is, of the current ones that claim it, the one whose name was used
    last for the first time. -/
theorem Reflects.forExtension_eq_ok_iff (h : r.Reflects history) :
    r.forExtension ext = .ok p ↔ IsCurrent history p ∧ p.claims ext = true ∧
      ∀ q, IsCurrent history q → q.claims ext = true →
        firstAt history q.id ≤ firstAt history p.id := by
  have hfind : r.forExtension ext = .ok p ↔
      r.profiles.reverse.find? (·.claims ext) = some p := by
    rw [forExtension]
    split <;> simp [*]
  rw [hfind, List.find?_eq_some_iff_append]
  simp only [← h.mem_profiles]
  have horder := h.order
  rw [ids, List.pairwise_map] at horder
  constructor
  · rintro ⟨hclaims, later, earlier, hrev, hlater⟩
    obtain hprofiles := List.reverse_eq_iff.1 hrev
    simp only [List.reverse_append, List.reverse_cons, List.append_assoc, List.singleton_append]
      at hprofiles
    rw [hprofiles] at horder ⊢
    refine ⟨List.mem_append_right _ List.mem_cons_self, hclaims, fun q hq hqclaims => ?_⟩
    rcases List.mem_append.1 hq with hq | hq
    · exact Nat.le_of_lt ((List.pairwise_append.1 horder).2.2 q hq p List.mem_cons_self)
    · rcases List.mem_cons.1 hq with rfl | hq
      · exact Nat.le_refl _
      · have := hlater q (List.mem_reverse.1 hq)
        simp [hqclaims] at this
  · rintro ⟨hmem, hclaims, hmax⟩
    obtain ⟨before, after, hprofiles⟩ := List.append_of_mem hmem
    rw [hprofiles] at horder hmax ⊢
    refine ⟨hclaims, after.reverse, before.reverse, by simp, fun q hq => ?_⟩
    have hq := List.mem_reverse.1 hq
    have hlt := (List.pairwise_cons.1 (List.pairwise_append.1 horder).2.1).1 q hq
    by_contra hqclaims
    exact Nat.not_le_of_lt hlt (hmax q (by simp [hq]) (by simpa using hqclaims))

theorem Reflects.forExtension (h : r.Reflects history) (ext : String) :
    (∃ p, r.forExtension ext = .ok p ∧ IsCurrent history p ∧ p.claims ext = true ∧
        ∀ q, IsCurrent history q → q.claims ext = true →
          firstAt history q.id ≤ firstAt history p.id) ∨
      r.forExtension ext = .error (.unsupported ("." ++ Profile.bareExtension ext)) ∧
        ∀ q, IsCurrent history q → q.claims ext = false := by
  cases hfind : r.profiles.reverse.find? (·.claims ext) with
  | some p =>
    have hp : r.forExtension ext = .ok p := by simp [Registry.forExtension, hfind]
    exact .inl ⟨p, hp, h.forExtension_eq_ok_iff.1 hp⟩
  | none =>
    refine .inr ⟨by simp [Registry.forExtension, hfind], fun q hq => ?_⟩
    have hq := List.find?_eq_none.1 hfind q (List.mem_reverse.2 ((h.mem_profiles q).2 hq))
    simpa using hq

/-- A profile that is registered under a new name has the extensions that it claims, as long as
    no other one that claims them is registered. -/
theorem Reflects.forExtension_of_new (h : r.Reflects (before ++ p :: after))
    (hclaims : p.claims ext = true) (hnew : ∀ q ∈ before ++ after, q.id ≠ p.id)
    (hafter : ∀ q ∈ after, IsCurrent (before ++ p :: after) q → q.claims ext = false) :
    r.forExtension ext = .ok p := by
  rw [List.forall_mem_append] at hnew
  refine h.forExtension_eq_ok_iff.2 ⟨⟨before, after, rfl, hnew.2⟩, hclaims, fun q hq hqclaims => ?_⟩
  rcases List.mem_append.1 hq.mem with hmem | hmem
  · calc firstAt (before ++ p :: after) q.id = firstAt before q.id := firstAt_append ⟨q, hmem, rfl⟩
      _ ≤ before.length := Nat.le_of_lt (firstAt_lt_length ⟨q, hmem, rfl⟩)
      _ ≤ firstAt (before ++ p :: after) p.id := length_le_firstAt hnew.1 (p :: after)
  · rcases List.mem_cons.1 hmem with rfl | hmem
    · exact Nat.le_refl _
    · rw [hafter q hmem hq] at hqclaims
      cases hqclaims

/-- What a registry answers after the registrations of a history. -/
structure Answers (r : Registry) (history : List Profile) : Prop where
  nodup : r.ids.Nodup
  mem_profiles : ∀ p, p ∈ r.profiles ↔ IsCurrent history p
  get : ∀ id, (∃ p, r.get id = .ok p ∧ IsCurrent history p ∧ p.id = id) ∨
    r.get id = .error (.unsupported id) ∧ ∀ q ∈ history, q.id ≠ id
  forExtension : ∀ ext, (∃ p, r.forExtension ext = .ok p ∧ IsCurrent history p ∧
      p.claims ext = true ∧ ∀ q, IsCurrent history q → q.claims ext = true →
        firstAt history q.id ≤ firstAt history p.id) ∨
    r.forExtension ext = .error (.unsupported ("." ++ Profile.bareExtension ext)) ∧
      ∀ q, IsCurrent history q → q.claims ext = false
  latest : ∀ ext p, IsLatest history ext p → (r.forExtension ext = .ok p ↔
    ∀ q, IsCurrent history q → q.claims ext = true → firstAt history q.id ≤ firstAt history p.id)
  new : ∀ ext before p after, history = before ++ p :: after → p.claims ext = true →
    (∀ q ∈ before ++ after, q.id ≠ p.id) →
      (∀ q ∈ after, IsCurrent history q → q.claims ext = false) → r.forExtension ext = .ok p

theorem Reflects.answers (h : r.Reflects history) : r.Answers history where
  nodup := h.nodup
  mem_profiles := h.mem_profiles
  get := h.get
  forExtension := h.forExtension
  latest ext p hp := by
    obtain ⟨before, after, -, -, hclaims, -⟩ := id hp
    rw [h.forExtension_eq_ok_iff]
    exact ⟨fun ⟨_, _, hmax⟩ => hmax, fun hmax => ⟨hp.isCurrent, hclaims, hmax⟩⟩
  new _ _ _ _ heq hclaims hnew hafter := by
    subst heq
    exact h.forExtension_of_new hclaims hnew hafter

/-- A profile under a name that is not built in keeps its extensions from the built-in ones. -/
theorem Reflects.exists_forExtension_of_foreign {languages : List Profile}
    (h : r.Reflects (Profile.builtin ++ languages)) (hp : p ∈ r.profiles)
    (hclaims : p.claims ext = true) (hforeign : ∀ b ∈ Profile.builtin, b.id ≠ p.id) :
    ∃ q ∈ languages, r.forExtension ext = .ok q ∧ ∀ b ∈ Profile.builtin, b.id ≠ q.id := by
  have hp := (h.mem_profiles p).1 hp
  obtain ⟨q, hq, hcurrent, -, hmax⟩ | ⟨-, hnone⟩ := h.forExtension ext
  · have hname : ∀ b ∈ Profile.builtin, b.id ≠ q.id := fun b hb hid => by
      have hlt : firstAt (Profile.builtin ++ languages) q.id < Profile.builtin.length := by
        rw [firstAt_append ⟨b, hb, hid⟩]
        exact firstAt_lt_length ⟨b, hb, hid⟩
      have hle := length_le_firstAt hforeign languages
      have := hmax p hp hclaims
      omega
    refine ⟨q, (List.mem_append.1 hcurrent.mem).resolve_left fun hbuiltin => ?_, hq, hname⟩
    exact hname q hbuiltin rfl
  · rw [hnone p hp] at hclaims
    cases hclaims

end Registry

theorem Settings.registry_eq_ok [RegexLibrary] {s : Settings} {r : Registry}
    (h : s.registry = .ok r) : r = Registry.builtin.registerAll s.languages := by
  unfold registry at h
  generalize Registry.builtin = start at h ⊢
  generalize s.languages = languages at h ⊢
  induction languages generalizing start with
  | nil => exact (Except.ok.inj h).symm
  | cons p languages ih =>
    rw [List.foldlM_cons] at h
    cases hfault : p.fault? with
    | some fault => simp [hfault, bind, Except.bind] at h
    | none =>
      simp only [hfault] at h
      exact ih (start.register p) h

/-- A registry knows the profile that was registered last under each name. Of those that claim an
    extension it gives the one whose name was used last for the first time, which is the one that
    was registered last unless that took up a name from before another one's. Languages of the
    settings that have names of their own come before the built-in ones. -/
theorem Registry.registerAll_answers [RegexLibrary] {r : Registry} (hr : r = empty ∨ r = builtin)
    (calls : List Profile) :
    (r.registerAll calls).Answers (r.profiles ++ calls) ∧
      ∀ (settings : Settings) (s : Registry), settings.registry = .ok s →
        s.Answers (Profile.builtin ++ settings.languages) ∧
          ∀ ext, ∀ p ∈ s.profiles, p.claims ext = true →
            (∀ b ∈ Profile.builtin, b.id ≠ p.id) →
              ∃ q ∈ settings.languages, s.forExtension ext = .ok q ∧
                ∀ b ∈ Profile.builtin, b.id ≠ q.id := by
  refine ⟨((reflects_profiles hr).registerAll calls).answers, fun settings s hs => ?_⟩
  have hreflects := (reflects_profiles (.inr rfl)).registerAll settings.languages
  rw [← settings.registry_eq_ok hs] at hreflects
  exact ⟨hreflects.answers, fun _ _ => hreflects.exists_forExtension_of_foreign⟩

/-- A language that is registered again under the first of the built-in names stays behind a
    built-in one for the extension that both claim. -/
theorem Registry.registerAll_answers_renewed_name :
    let p := Profile.cLike "c_cpp" [".rs"] [.escaped "\""]
    IsLatest (builtin.profiles ++ [p]) ".rs" p ∧
      (builtin.registerAll [p]).forExtension ".rs" ≠ .ok p ∧
      (builtin.registerAll [p]).forExtension ".rs" = builtin.get "rust" := by
  intro p
  have hlatest : IsLatest (builtin.profiles ++ [p]) ".rs" p :=
    ⟨builtin.profiles, [], rfl, by simp, by decide +kernel, by simp⟩
  obtain ⟨⟨-, hmem, -, -, hiff, -⟩, -⟩ := registerAll_answers (.inr rfl) [p]
  refine ⟨hlatest, fun hp => ?_, by decide +kernel⟩
  have hrust : ∃ q ∈ (builtin.registerAll [p]).profiles, q.claims ".rs" = true ∧
      firstAt (builtin.profiles ++ [p]) p.id < firstAt (builtin.profiles ++ [p]) q.id := by
    decide +kernel
  obtain ⟨q, hq, hclaims, hlt⟩ := hrust
  exact Nat.not_le_of_lt hlt ((hiff ".rs" p hlatest).1 hp q ((hmem q).1 hq) hclaims)

end LiterateSync
