import LiterateSync.Wire.Language
import LiterateSync.Proofs.Wire.Codes

namespace LiterateSync

open Json

theorem BlockComment.codes : Codes (fun _ => True) 1 toJson ofJson? where
  exact _ := .object (by simp)
  read_write _ := by
    rw [ofJson?, toJson, record?_object (by simp) (by decide)]
    simp
  fits _ := trivial

theorem StringSyntax.codes : Codes (fun _ => True) 1 toJson ofJson? where
  exact {s} _ := by
    obtain ⟨delimiter, closing, escape, multiline, template⟩ := s
    refine .object ?_
    cases closing <;> cases escape <;> simp
  read_write {s} _ := by
    obtain ⟨delimiter, closing, escape, multiline, template⟩ := s
    rw [ofJson?, toJson, record?_object ?_ (by decide)]
    · cases closing <;> cases escape <;>
        simp [orNull?, char?]
    · cases closing <;> cases escape <;> simp
  fits _ := trivial

theorem Heredoc.codes : Codes (fun _ => True) 1 toJson ofJson? where
  exact _ := .object (by simp)
  read_write _ := by
    rw [ofJson?, toJson, record?_object (by simp) (by decide)]
    simp
  fits _ := trivial

/-- What is left out of a profile is read as missing, and a profile without heredocs is not told
    apart from one with an empty list of them. -/
theorem Profile.codes : Codes (fun _ => True) 3 toJson ofJson? where
  exact {p} _ := by
    have hnames (l : List String) : IsExact 2 (ofList .string l) :=
      (Codes.string.ofList.exact fun _ _ => trivial).mono (by decide)
    have hblocks : IsExact 2 (ofList BlockComment.toJson p.blockComments) :=
      BlockComment.codes.ofList.exact fun _ _ => trivial
    have hstrings : IsExact 2 (ofList StringSyntax.toJson p.strings) :=
      StringSyntax.codes.ofList.exact fun _ _ => trivial
    have hheredocs : IsExact 2 (ofList Heredoc.toJson p.heredocs) :=
      Heredoc.codes.ofList.exact fun _ _ => trivial
    refine .object ?_
    by_cases hnone : p.heredocs = [] <;> cases p.lineContinuation <;>
      simp [hnone, hnames, hblocks, hstrings, hheredocs]
  read_write {p} _ := by
    have hnames (l : List String) : list? string? (ofList .string l) = some l :=
      Codes.string.ofList.read_write fun _ _ => trivial
    have hblocks := BlockComment.codes.ofList.read_write (a := p.blockComments) fun _ _ => trivial
    have hstrings := StringSyntax.codes.ofList.read_write (a := p.strings) fun _ _ => trivial
    have hheredocs := Heredoc.codes.ofList.read_write (a := p.heredocs) fun _ _ => trivial
    obtain ⟨id, extensions, lineComments, blockComments, strings, heredocs, lineContinuation⟩ := p
    rw [ofJson?, toJson, record?_object ?_ (by decide)]
    · by_cases hnone : heredocs = [] <;> cases lineContinuation <;>
        simp [orNull?, hnames, hblocks, hstrings, hheredocs, hnone]
    · by_cases hnone : heredocs = [] <;> cases lineContinuation <;> simp [hnone]
  fits _ := trivial

theorem BlockKind.codes (kept : Bool) : Codes (fun _ => True) 0 toJson (ofJson? kept) where
  exact _ := .string _
  read_write {k} _ := by cases k <;> simp [ofJson?, toJson, tag?, name]
  fits _ := trivial

/-- A range whose ends are numbers of 64 bits. -/
def ByteRange.Fits (r : ByteRange) : Prop :=
  r.start < Nat.pow 2 64 ∧ r.stop < Nat.pow 2 64

theorem ByteRange.codes : Codes Fits 1 toJson ofJson? where
  exact hfits := .object (by simpa using ⟨IsExact.nat hfits.1, IsExact.nat hfits.2⟩)
  read_write hfits := by
    rw [toJson, ofJson?, record?_object (by simp) (by decide)]
    simp [nat64?, natBelow?, hfits.1, hfits.2]
  fits {v r} hread := by
    have hrecord : ((record? ["start", "end"] v).bind fun fields =>
        (fields.required "start" nat64?).bind fun start =>
          (fields.required "end" nat64?).bind fun stop => some (ByteRange.mk start stop)) =
        some r := by
      rw [ofJson?.eq_def] at hread
      split at hread
      · split at hread
        · cases hread
        · exact hread
      · exact hread
    simp only [Option.bind_eq_some_iff, Option.some.injEq] at hrecord
    obtain ⟨fields, -, start, hstart, stop, hstop, rfl⟩ := hrecord
    exact ⟨Codes.nat64.fits_of_required hstart, Codes.nat64.fits_of_required hstop⟩

/-- A segment whose range fits. -/
def Segment.Fits (s : Segment) : Prop :=
  s.range.Fits

theorem Segment.codes : Codes Fits 2 toJson ofJson? where
  exact hfits := .object (by
    simp [BlockKind.toJson, ByteRange.codes.exact hfits])
  read_write {s} hfits := by
    have hkind := (BlockKind.codes false).read_write (a := s.kind) trivial
    have hrange := ByteRange.codes.read_write hfits
    rw [ofJson?, toJson, record?_object (by simp) (by decide)]
    simp [hkind, hrange]
  fits {v s} hread := by
    simp only [ofJson?, Option.bind_eq_bind, Option.bind_eq_some_iff, Option.some.injEq] at hread
    obtain ⟨fields, -, kind, -, text, -, range, hrange, rfl⟩ := hread
    exact ByteRange.codes.fits_of_required hrange

theorem DocComment.codes : Codes (fun _ => True) 1 toJson ofJson? where
  exact _ := .object (by simp)
  read_write _ := by
    rw [ofJson?, toJson, record?_object (by simp) (by decide)]
    simp
  fits _ := trivial

end LiterateSync
