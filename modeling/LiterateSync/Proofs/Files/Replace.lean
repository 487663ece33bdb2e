import Mathlib.Data.List.Induction
import LiterateSync.Files.Basic

namespace LiterateSync.Files

variable {fs next last : Files} {here place : Place} {name path text : String}

/-- Whether directories lead to a place. -/
def Reaches (fs : Files) (place : Place) : Prop :=
  ∀ above name below, place = above ++ name :: below → fs.node? above = some .directory

theorem reaches_nil (fs : Files) : fs.Reaches [] := by
  intro above name below h
  simp at h

theorem reaches_concat :
    fs.Reaches (place ++ [name]) ↔ fs.Reaches place ∧ fs.node? place = some .directory := by
  constructor
  · intro h
    refine ⟨fun above name' below hplace => ?_, h place name [] rfl⟩
    exact h above name' (below ++ [name]) (by simp [hplace])
  · rintro ⟨hplace, hdirectory⟩ above name' below heq
    cases below using List.reverseRecOn with
    | nil =>
      obtain ⟨rfl, -⟩ := List.append_inj' heq rfl
      exact hdirectory
    | append_singleton below name'' =>
      refine hplace above name' below ?_
      have heq' : place ++ [name] = (above ++ name' :: below) ++ [name''] := by simp [heq]
      exact (List.append_inj' heq' rfl).1

theorem node?_of_prefix (h : place <+: fs.home) : fs.node? place = some .directory := by
  rw [node?, if_pos (List.isPrefixOf_iff_prefix.2 h)]

theorem reaches_home (fs : Files) : fs.Reaches fs.home := fun _ name below heq =>
  node?_of_prefix ⟨name :: below, heq.symm⟩

theorem Reaches.dropLast (h : fs.Reaches place) : fs.Reaches place.dropLast := by
  cases place using List.reverseRecOn with
  | nil => exact h
  | append_singleton place name =>
    rw [List.dropLast_concat]
    exact (reaches_concat.1 h).1

/-- A name is looked for in a directory. -/
theorem enter_eq_ok (h : fs.enter here name = .ok place) :
    fs.node? here = some .directory ∧ (place = here ∨ place = here.dropLast ∨
      place = here ++ [name]) := by
  rw [enter] at h
  split at h
  · cases h
  · rename_i hdirectory
    refine ⟨hdirectory, ?_⟩
    split at h
    · cases h
      exact .inl rfl
    · split at h
      · cases h
        exact .inr (.inl rfl)
      · split at h
        · cases h
        · cases h
          exact .inr (.inr rfl)
  · cases h

theorem Reaches.enter (hhere : fs.Reaches here) (h : fs.enter here name = .ok place) :
    fs.Reaches place := by
  obtain ⟨hdirectory, rfl | rfl | rfl⟩ := enter_eq_ok h
  · exact hhere
  · exact hhere.dropLast
  · exact reaches_concat.2 ⟨hhere, hdirectory⟩

theorem reaches_start (fs : Files) (path : String) : fs.Reaches (fs.start path) := by
  rw [start]
  split
  · exact fs.reaches_nil
  · exact fs.reaches_home

/-- Whether there are the same directories, as far as directories lead to them. -/
structure SameDirectories (fs next : Files) : Prop where
  home_eq : next.home = fs.home
  node?_iff : ∀ place, fs.Reaches place →
    (next.node? place = some .directory ↔ fs.node? place = some .directory)

namespace SameDirectories

theorem reaches_iff (h : fs.SameDirectories next) : next.Reaches place ↔ fs.Reaches place := by
  induction place using List.reverseRecOn with
  | nil => exact ⟨fun _ => fs.reaches_nil, fun _ => next.reaches_nil⟩
  | append_singleton place name ih =>
    rw [reaches_concat, reaches_concat, ih]
    exact and_congr_right fun hplace => h.node?_iff place hplace

theorem symm (h : fs.SameDirectories next) : next.SameDirectories fs where
  home_eq := h.home_eq.symm
  node?_iff place hplace := (h.node?_iff place (h.reaches_iff.1 hplace)).symm

theorem trans (h : fs.SameDirectories next) (h' : next.SameDirectories last) :
    fs.SameDirectories last where
  home_eq := h'.home_eq.trans h.home_eq
  node?_iff place hplace :=
    (h'.node?_iff place (h.reaches_iff.2 hplace)).trans (h.node?_iff place hplace)

theorem enter (h : fs.SameDirectories next) (hhere : fs.Reaches here)
    (heq : fs.enter here name = .ok place) : next.enter here name = .ok place := by
  obtain ⟨hdirectory, -⟩ := enter_eq_ok heq
  have hdirectory' := (h.node?_iff here hhere).2 hdirectory
  rw [Files.enter, hdirectory] at heq
  rw [Files.enter, hdirectory']
  exact heq

/-- The way to a place goes through directories alone. -/
theorem walk (h : fs.SameDirectories next) {names : List String} (hhere : fs.Reaches here)
    (heq : fs.walk here names = .ok place) :
    next.walk here names = .ok place ∧ fs.Reaches place := by
  induction names generalizing here with
  | nil =>
    cases heq
    exact ⟨rfl, hhere⟩
  | cons name names ih =>
    rw [Files.walk, List.foldlM_cons] at heq ⊢
    cases henter : fs.enter here name with
    | error e =>
      rw [henter] at heq
      cases heq
    | ok step =>
      rw [henter] at heq
      rw [h.enter hhere henter]
      exact ih (hhere.enter henter) heq

theorem locate (h : fs.SameDirectories next) (heq : fs.locate path = .ok place) :
    next.locate path = .ok place ∧ fs.Reaches place := by
  have hstart : next.start path = fs.start path := by rw [start, start, h.home_eq]
  rw [Files.locate] at heq ⊢
  split at heq
  · cases heq
  · split at heq
    · cases heq
    · split at heq
      · cases heq
      · rename_i hnull hempty hlong
        rw [if_neg hnull, if_neg hempty, if_neg hlong, hstart]
        exact h.walk (fs.reaches_start path) heq

end SameDirectories

theorem not_isPrefixOf_home (h : fs.node? place ≠ some .directory) :
    place.isPrefixOf fs.home = false := by
  rw [node?] at h
  split at h
  · exact absurd rfl h
  · exact Bool.eq_false_iff.2 ‹_›

theorem node?_put (fs : Files) (place other : Place) (node : FileNode) :
    (fs.put place node).node? other = if other.isPrefixOf fs.home then some .directory
      else if place = other then some node else fs.node? other := by
  rw [node?, put]
  simp only
  split
  · rfl
  · rename_i hhome
    rw [List.find?_cons]
    by_cases hplace : place = other
    · simp [hplace]
    · have hfind : (fs.entries.filter (·.1 ≠ place)).find? (·.1 = other) =
          fs.entries.find? (·.1 = other) := by
        rw [List.find?_filter]
        congr 1
        funext entry
        by_cases hentry : entry.1 = other
        · simp [hentry, Ne.symm hplace]
        · simp [hentry]
      simp only [hplace, decide_false, if_false, hfind]
      rw [node?, if_neg hhome]

theorem node?_delete (fs : Files) (place other : Place) :
    (fs.delete place).node? other = if other.isPrefixOf fs.home then some .directory
      else if place.isPrefixOf other then none else fs.node? other := by
  rw [node?, delete]
  simp only
  split
  · rfl
  · rename_i hhome
    split
    · rename_i hplace
      rw [List.find?_filter, Option.map_eq_none_iff, List.find?_eq_none]
      intro entry _ hentry
      simp only [Bool.not_eq_true', decide_eq_true_eq] at hentry
      simp [hentry.2, hplace] at hentry
    · rename_i hplace
      have hfind : (fs.entries.filter fun entry => !place.isPrefixOf entry.1).find?
          (·.1 = other) = fs.entries.find? (·.1 = other) := by
        rw [List.find?_filter]
        congr 1
        funext entry
        by_cases hentry : entry.1 = other
        · simp [hentry, hplace]
        · simp [hentry]
      rw [hfind, node?, if_neg hhome]

theorem sameDirectories_put {node : FileNode} (hplace : fs.node? place ≠ some .directory)
    (hnode : node ≠ .directory) : fs.SameDirectories (fs.put place node) where
  home_eq := rfl
  node?_iff other _ := by
    rw [node?_put]
    split
    · rename_i hhome
      rw [node?, if_pos hhome]
    · split
      · rename_i heq
        simp [← heq, hplace, hnode]
      · rfl

/-- What is below a place that is no directory is not reached. -/
theorem sameDirectories_delete (hplace : fs.node? place ≠ some .directory) :
    fs.SameDirectories (fs.delete place) where
  home_eq := rfl
  node?_iff other hother := by
    rw [node?_delete]
    split
    · rename_i hhome
      rw [node?, if_pos hhome]
    · split
      · rename_i hbelow
        obtain ⟨below, rfl⟩ := List.isPrefixOf_iff_prefix.1 hbelow
        cases below with
        | nil => simp [hplace]
        | cons name below => exact absurd (hother place name below rfl) hplace
      · rfl

/-- Whether a text can be written at a path: both the file there and the one that is written first
    can be found, and no directory is in their place. -/
def IsWritable (fs : Files) (path : String) : Prop :=
  ∃ spare place, fs.locate (FileName.spare path) = .ok spare ∧
    fs.node? spare ≠ some .directory ∧ fs.locate path = .ok place ∧
    fs.node? place ≠ some .directory

theorem IsWritable.of_same (h : fs.IsWritable path) (hsame : fs.SameDirectories next) :
    next.IsWritable path := by
  obtain ⟨spare, place, hspare, hfree, hplace, hfile⟩ := h
  obtain ⟨hspare', hreaches⟩ := hsame.locate hspare
  obtain ⟨hplace', hreaches'⟩ := hsame.locate hplace
  exact ⟨spare, place, hspare', mt (hsame.node?_iff spare hreaches).1 hfree, hplace',
    mt (hsame.node?_iff place hreaches').1 hfile⟩

theorem writable_eq_ok_iff {result : Place} :
    fs.writable place = .ok result ↔ fs.node? place ≠ some .directory ∧ result = place := by
  rw [writable]
  split <;> simp_all [eq_comm]

/-- A text that is written at a path is found there, and others can be written there again. -/
theorem IsWritable.replace (h : fs.IsWritable path) (text : String) :
    (fs.replace path text).2 = .ok () ∧ (fs.replace path text).1.read path = .ok text ∧
      (fs.replace path text).1.IsWritable path := by
  obtain ⟨spare, place, hspare, hfree, hplace, hfile⟩ := id h
  have hwrite : fs.SameDirectories (fs.put spare (.text text)) := sameDirectories_put hfree nofun
  obtain ⟨-, hreaches⟩ := hwrite.locate hspare
  obtain ⟨hplace', hreaches'⟩ := hwrite.locate hplace
  have hfree' : (fs.put spare (.text text)).node? spare ≠ some .directory :=
    mt (hwrite.node?_iff spare hreaches).1 hfree
  have hfile' : (fs.put spare (.text text)).node? place ≠ some .directory :=
    mt (hwrite.node?_iff place hreaches').1 hfile
  have hdelete := hwrite.trans (sameDirectories_delete hfree')
  have hfile'' : ((fs.put spare (.text text)).delete spare).node? place ≠ some .directory :=
    mt (hdelete.node?_iff place hreaches').1 hfile
  have hput := hdelete.trans (sameDirectories_put hfile'' (by nofun : FileNode.text text ≠ .directory))
  have hreplace : fs.replace path text =
      (((fs.put spare (.text text)).delete spare).put place (.text text), .ok ()) := by
    have hfirst : fs.locate (FileName.spare path) >>= fs.writable = .ok spare := by
      rw [hspare]
      exact writable_eq_ok_iff.2 ⟨hfree, rfl⟩
    have hsecond : (fs.put spare (.text text)).locate path >>=
        (fs.put spare (.text text)).writable = .ok place := by
      rw [hplace']
      exact writable_eq_ok_iff.2 ⟨hfile', rfl⟩
    unfold Files.replace
    simp only [hfirst, hsecond]
  rw [hreplace]
  refine ⟨rfl, ?_, h.of_same hput⟩
  have hfound : (((fs.put spare (.text text)).delete spare).put place (.text text)).node? place =
      some (.text text) := by
    have hhome : place.isPrefixOf ((fs.put spare (.text text)).delete spare).home = false :=
      not_isPrefixOf_home hfile''
    simp [node?_put, hhome]
  rw [read, (hput.locate hplace).1]
  simp only [bind, Except.bind, hfound]

theorem located_eq_ok (h : fs.locate path >>= fs.writable = .ok place) :
    fs.locate path = .ok place ∧ fs.node? place ≠ some .directory := by
  cases hlocate : fs.locate path with
  | error e =>
    rw [hlocate] at h
    cases h
  | ok found =>
    rw [hlocate] at h
    obtain ⟨hfree, rfl⟩ := writable_eq_ok_iff.1 h
    exact ⟨rfl, hfree⟩

/-- One write that succeeds is enough for others to succeed. -/
theorem isWritable_iff : fs.IsWritable path ↔ ∃ text, (fs.replace path text).2 = .ok () := by
  refine ⟨fun h => ⟨"", (h.replace "").1⟩, ?_⟩
  rintro ⟨text, h⟩
  unfold replace at h
  split at h
  · cases h
  · rename_i spare hspare
    simp only at h
    split at h
    · cases h
    · rename_i place hplace
      obtain ⟨hlocate, hfree⟩ := located_eq_ok hspare
      obtain ⟨hlocate', hfile⟩ := located_eq_ok hplace
      have hback := (sameDirectories_put hfree (by nofun : FileNode.text text ≠ .directory)).symm
      obtain ⟨hbefore, hreaches⟩ := hback.locate hlocate'
      exact ⟨spare, place, hlocate, hfree, hbefore,
        mt (hback.node?_iff place hreaches).1 hfile⟩

end LiterateSync.Files
