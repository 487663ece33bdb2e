import LiterateSync.Command.Check
import LiterateSync.Proofs.Segment.Lines
import LiterateSync.Text.Pattern.Library

namespace LiterateSync

/-- How two neighbouring spans meet when no more code can be joined. -/
def Span.Meets (x y : Span) : Prop :=
  EndsLine x.chars ∧ (x.kind = .doc ∨ y.kind = .doc)

/-- Joining code leaves spans that are not empty and end at line feeds, and no two of
    them that could be joined. -/
theorem isChain_joinCode {all : List Span} (hne : ∀ x ∈ all, x.chars ≠ [])
    (hchain : all.IsChain fun x _ => EndsLine x.chars) :
    (∀ x ∈ joinCode all, x.chars ≠ []) ∧ (joinCode all).IsChain Span.Meets ∧
      (joinCode all = [] ↔ all = []) := by
  induction all with
  | nil => exact ⟨by simp [joinCode], .nil, by simp [joinCode]⟩
  | cons x all ih =>
    obtain ⟨kind, s⟩ := x
    obtain ⟨hs, hne⟩ := List.forall_mem_cons.1 hne
    obtain ⟨hne', hchain', hnil⟩ := ih hne hchain.of_cons
    have hends : joinCode all ≠ [] → EndsLine s := by
      intro hjoined
      cases all with
      | nil => exact absurd rfl hjoined
      | cons y all => exact (List.isChain_cons_cons.1 hchain).1
    cases kind with
    | doc =>
      rw [joinCode]
      refine ⟨List.forall_mem_cons.2 ⟨hs, hne'⟩, ?_, by simp⟩
      cases hjoined : joinCode all with
      | nil => exact .singleton _
      | cons y rest =>
        rw [hjoined] at hchain' hends
        exact List.isChain_cons_cons.2 ⟨⟨hends (by simp), .inl rfl⟩, hchain'⟩
    | code =>
      rw [joinCode]
      split
      · rename_i t rest hjoined
        rw [hjoined] at hne' hchain'
        refine ⟨List.forall_mem_cons.2 ⟨by simp [hs], fun y hy => hne' y (by simp [hy])⟩, ?_,
          by simp⟩
        cases rest with
        | nil => exact .singleton _
        | cons y rest =>
          obtain ⟨⟨hend, hkind⟩, hrest⟩ := List.isChain_cons_cons.1 hchain'
          exact List.isChain_cons_cons.2 ⟨⟨hend.append_left s, hkind⟩, hrest⟩
      · rename_i hjoined
        refine ⟨List.forall_mem_cons.2 ⟨hs, hne'⟩, ?_, by simp⟩
        cases hrest : joinCode all with
        | nil => exact .singleton _
        | cons y rest =>
          rw [hrest] at hchain' hends
          refine List.isChain_cons_cons.2 ⟨⟨hends (by simp), .inr ?_⟩, hchain'⟩
          obtain ⟨kind, t⟩ := y
          cases kind with
          | doc => rfl
          | code => exact absurd hrest (hjoined t rest)

namespace Segment

/-- Whether a segment is the part of a text at its range: both ends of the range are boundaries of
    characters, and the bytes between them are those of the segment. -/
structure IsSlice (text : String) (s : Segment) : Prop where
  nonempty : s.range.start < s.range.stop
  start_isValid : String.Pos.Raw.IsValid text ⟨s.range.start⟩
  stop_isValid : String.Pos.Raw.IsValid text ⟨s.range.stop⟩
  bytes : text.toUTF8.extract s.range.start s.range.stop = s.text.toUTF8

/-- How two neighbouring segments meet: at one byte, behind a line feed, and not within code. -/
structure Meets (s t : Segment) : Prop where
  stop_eq : s.range.stop = t.range.start
  endsLine : EndsLine s.text.toList
  isDoc : s.kind = .doc ∨ t.kind = .doc

/-- Whether segments are a text cut into parts, from its first to its last byte. -/
structure Tiling (text : String) (segments : List Segment) : Prop where
  isSlice : ∀ s ∈ segments, s.IsSlice text
  first : ∀ s ∈ segments.head?, s.range.start = 0
  meets : segments.IsChain Meets
  last : ∀ s ∈ segments.getLast?, s.range.stop = text.utf8ByteSize
  eq_empty : segments = [] → text = ""

theorem byteLength_eq (s : List Char) : Text.byteLength s = (String.ofList s).utf8ByteSize := by
  induction s with
  | nil => rfl
  | cons c s ih =>
    have hsplit : String.ofList (c :: s) = String.singleton c ++ String.ofList s := by
      rw [String.singleton_eq_ofList, ← String.ofList_append, List.singleton_append]
    rw [hsplit, String.utf8ByteSize_append, String.utf8ByteSize_singleton, ← ih]
    rfl

theorem byteLength_append (s t : List Char) :
    Text.byteLength (s ++ t) = Text.byteLength s + Text.byteLength t := by
  simp only [byteLength_eq, String.ofList_append, String.utf8ByteSize_append]

theorem byteLength_append_sub (s t : List Char) :
    Text.byteLength (s ++ t) - Text.byteLength t = (String.ofList s).utf8ByteSize := by
  rw [byteLength_append, Nat.add_sub_cancel, byteLength_eq]

theorem isSlice_of_append {before after content : String} (kind : BlockKind) {start stop : Nat}
    (hcontent : content ≠ "") (hstart : start = before.utf8ByteSize)
    (hstop : stop = (before ++ content).utf8ByteSize) :
    IsSlice (before ++ content ++ after) ⟨kind, content, ⟨start, stop⟩⟩ := by
  subst hstart hstop
  have hsize : content.utf8ByteSize ≠ 0 := fun hzero =>
    hcontent (String.utf8ByteSize_eq_zero_iff.1 hzero)
  refine ⟨?_, ?_, ?_, ?_⟩
  · rw [String.utf8ByteSize_append]
    exact Nat.lt_add_of_pos_right (Nat.pos_of_ne_zero hsize)
  · exact String.Pos.Raw.isValid_iff_exists_append.2
      ⟨before, content ++ after, by rw [String.append_assoc], rfl⟩
  · exact String.Pos.Raw.isValid_iff_exists_append.2 ⟨before ++ content, after, rfl, rfl⟩
  · simp only [String.toUTF8, String.toByteArray_append, ← String.size_toByteArray]
    rw [ByteArray.extract_append_size_left]
    exact ByteArray.extract_append_eq_right rfl ByteArray.size_append

/-- The segments of spans tile what they are placed behind. -/
theorem tiling_place {before : String} {spans : List Span} {text : String}
    (htext : text = before ++ String.ofList (spans.map (·.chars)).flatten)
    (hne : ∀ x ∈ spans, x.chars ≠ []) (hchain : spans.IsChain Span.Meets) :
    (∀ s ∈ place before.utf8ByteSize spans, s.IsSlice text) ∧
      (∀ s ∈ (place before.utf8ByteSize spans).head?, s.range.start = before.utf8ByteSize) ∧
      (place before.utf8ByteSize spans).IsChain Meets ∧
      ∀ s ∈ (place before.utf8ByteSize spans).getLast?, s.range.stop = text.utf8ByteSize := by
  induction spans generalizing before with
  | nil => simp [place]
  | cons x spans ih =>
    obtain ⟨hx, hne⟩ := List.forall_mem_cons.1 hne
    have hstop : before.utf8ByteSize + Text.byteLength x.chars =
        (before ++ String.ofList x.chars).utf8ByteSize := by
      rw [String.utf8ByteSize_append, byteLength_eq]
    have htext' : text = before ++ String.ofList x.chars ++
        String.ofList (spans.map (·.chars)).flatten := by
      rw [htext, List.map_cons, List.flatten_cons, String.ofList_append, String.append_assoc]
    obtain ⟨hslices, hfirst, hmeets, hlast⟩ := ih htext' hne hchain.of_cons
    rw [place]
    simp only [hstop]
    refine ⟨List.forall_mem_cons.2 ⟨?_, hslices⟩, by simp, ?_, ?_⟩
    · rw [htext']
      exact isSlice_of_append x.kind (by simpa using hx) rfl rfl
    · cases spans with
      | nil => exact .singleton _
      | cons y spans =>
        obtain ⟨⟨hends, hkind⟩, -⟩ := List.isChain_cons_cons.1 hchain
        rw [place] at hmeets ⊢
        exact List.isChain_cons_cons.2 ⟨⟨rfl, by simpa using hends, hkind⟩, hmeets⟩
    · cases spans with
      | nil => simp [place, htext']
      | cons y spans =>
        rw [place] at hlast ⊢
        exact hlast

theorem tiling_of_segment [RegexLibrary] {p : Profile} {text : String} {segments : List Segment}
    (h : segment p text = .ok segments) : Tiling text segments := by
  rw [segment] at h
  split at h
  · cases h
  · split at h
    · cases h
    · rename_i spans hspans
      cases h
      obtain ⟨hne, hchain⟩ := Grammar.spans_endsLine hspans
      obtain ⟨hne', hmeets, hnil⟩ := isChain_joinCode hne hchain
      have hflatten := flatten_joinCode spans
      rw [Grammar.flatten_of_spans hspans] at hflatten
      have htext : text = "" ++ String.ofList ((joinCode spans).map (·.chars)).flatten := by
        rw [hflatten, String.ofList_toList, String.empty_append]
      obtain ⟨hslices, hfirst, hmeets, hlast⟩ := tiling_place htext hne' hmeets
      refine ⟨hslices, hfirst, hmeets, hlast, fun hempty => ?_⟩
      cases hjoined : joinCode spans with
      | nil =>
        rw [hjoined] at hflatten
        simpa using hflatten.symm
      | cons x rest => simp [hjoined, place] at hempty

end Segment

/-- A file is not loaded because of its settings, its bytes or its language. -/
theorem SourceFile.load_ne_lossy [RegexLibrary] {fs : Files} {path place : String} {offset : Nat} :
    SourceFile.load fs path ≠ .error (.lossy place offset) := by
  rw [SourceFile.load]
  cases Settings.load fs with
  | error e => simp [Except.mapError, bind, Except.bind]
  | ok settings =>
    cases hregistry : settings.registry with
    | error e => simp [hregistry, Except.mapError, bind, Except.bind]
    | ok registry =>
      cases fs.read path with
      | error e => simp [hregistry, Except.mapError, bind, Except.bind]
      | ok text =>
        cases hdetect : registry.detect (some path) text <;>
          simp [hregistry, hdetect, Except.mapError, bind, Except.bind]

/-- The segments of a text are the text cut into parts. So its document gives the text back, and
    the check of a file never finds a difference. -/
theorem segment_lossless [RegexLibrary] (p : Profile) (text : String) :
    (∀ segments, segment p text = .ok segments → Segment.Tiling text segments) ∧
    (∀ d, Document.ofText p text = .ok d → d.text = text) ∧
    ∀ fs path place offset, (checkFile fs path).result ≠ .error (.lossy place offset) := by
  refine ⟨fun segments h => Segment.tiling_of_segment h, fun d h => Document.text_of_openWith h,
    fun fs path place offset => ?_⟩
  rw [checkFile]
  split
  · rename_i e hload
    intro hresult
    cases hresult
    exact SourceFile.load_ne_lossy hload
  · split
    · simp
    · rename_i d hd
      rw [if_pos (Document.text_of_openWith hd)]
      simp

/-- Characters of several bytes stand in all parts, and a literal holds what would be a doc line. -/
theorem segment_lossless_wide_characters :
    let p : Profile :=
      { id := "python", lineComments := ["#"], strings := [.spanning "\"\"\"", .escaped "\""] }
    let text := "é = 1 # ü\n# ñ\n\"\"\"a\n# 本\n\"\"\"\n# ç"
    let segments : List Segment :=
      [⟨.code, "é = 1 # ü\n", ⟨0, 12⟩⟩, ⟨.doc, "# ñ\n", ⟨12, 17⟩⟩,
        ⟨.code, "\"\"\"a\n# 本\n\"\"\"\n", ⟨17, 32⟩⟩, ⟨.doc, "# ç", ⟨32, 36⟩⟩]
    segment p text = .ok segments ∧ Segment.Tiling text segments := by
  intro p text segments
  have hsegment : segment p text = .ok segments := by decide +kernel
  exact ⟨hsegment, (segment_lossless p text).1 segments hsegment⟩

end LiterateSync
