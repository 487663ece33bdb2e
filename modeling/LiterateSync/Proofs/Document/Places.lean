import LiterateSync.Proofs.Document.ProseEdit
import LiterateSync.Proofs.Segment.LineFeeds
import LiterateSync.Text.Pattern.Library

namespace LiterateSync.Document

variable {p : Profile} {d : Document} {text prose : String} {blocks places : List Block}
  {b : Block} {place : Option Block} {k : Nat}

/-- What a block comes back as when the view shows it at the place of another block, or at none. Prose
    is marked up in the way of the doc block that the document has at that place. -/
def respelled (d : Document) (place : Option Block) (b : Block) : String :=
  match b.kind with
  | .code => b.content
  | .doc => d.docSource (place.filter (·.kind = .doc)) true (shownText d.profile b)

/-- What is asked of blocks whose sources are to be told apart in the text that they make up: all of
    them end lines, and the prose of a doc block has as many line feeds as the block. -/
structure IsTidy (d : Document) (blocks : List Block) : Prop where
  endsLine : ∀ b ∈ blocks, EndsLine b.content.toList
  returned : ∀ b ∈ blocks, d.returned b = b.content
  spells : ∀ b ∈ blocks, b.kind = .doc → ∃ comment, b.comment? d.profile = some comment ∧
    DocComment.parse? d.profile (String.ofList b.content.toList) = some comment ∧
    EndsLine comment.contents.toList ∧
    comment.contents.toList.count '\n' = b.content.toList.count '\n'

theorem endsLine_of_flatten (hne : ∀ b ∈ blocks, b.content.toList ≠ [])
    (hchain : blocks.IsChain fun b _ => EndsLine b.content.toList)
    (hends : EndsLine (blocks.map fun b => b.content.toList).flatten) :
    ∀ b ∈ blocks, EndsLine b.content.toList := by
  induction blocks with
  | nil => simp
  | cons b blocks ih =>
    obtain ⟨-, hne⟩ := List.forall_mem_cons.1 hne
    rw [List.map_cons, List.flatten_cons] at hends
    cases blocks with
    | nil => simpa using hends
    | cons c blocks =>
      have hrest : ((c :: blocks).map fun b => b.content.toList).flatten ≠ [] := by
        simp [hne c List.mem_cons_self]
      rw [EndsLine, List.getLast?_append_of_ne_nil _ hrest] at hends
      obtain ⟨hb, hchain⟩ := List.isChain_cons_cons.1 hchain
      exact List.forall_mem_cons.2 ⟨hb, ih hne hchain hends⟩

theorem isTidy_of_ofText [RegexLibrary] (hp : p.HasPlainComments) (h : ofText p text = .ok d)
    {e : LineEnding} (hstyle : LineEnding.isUniform e text.toList = true)
    (hends : EndsLine text.toList) : d.IsTidy d.blocks := by
  have hendsLine : ∀ b ∈ d.blocks, EndsLine b.content.toList :=
    endsLine_of_flatten (content_ne_nil h) (isChain_of_ofText h) (by
      rwa [← toList_text, text_of_openWith h])
  refine ⟨hendsLine, keepsEndings_iff.1 (keepsEndings_of_isUniform h hstyle), fun b hb hkind => ?_⟩
  obtain ⟨comment, hcomment⟩ := Option.isSome_iff_exists.1 (spellsComments_of_ofText
    (fun delimiter hd => (hp.line delimiter hd).not_mem (by simp)) h b hb hkind)
  obtain ⟨before, after, hblocks⟩ := List.append_of_mem hb
  obtain ⟨-, hrun, -⟩ := exists_spans_of_blocks h hblocks hkind
  obtain ⟨-, rfl, -⟩ := exists_spans_of_openWith h
  have hparse : DocComment.parse? d.profile (String.ofList b.content.toList) = some comment := by
    rw [String.ofList_toList, ← hcomment, Block.comment?, hkind]
  exact ⟨comment, hcomment, hparse, endsLine_contents hp (hendsLine b hb) hparse,
    count_contents hp hrun hparse⟩

theorem IsTidy.endsLine_shownText (h : d.IsTidy d.blocks) (hb : b ∈ d.blocks)
    (hkind : b.kind = .doc) : EndsLine (shownText d.profile b).toList := by
  obtain ⟨comment, hcomment, -, hends, -⟩ := h.spells b hb hkind
  rw [shownText, hcomment, Option.map_some, Option.getD_some]
  exact LineEnding.endsLine_convert .lf hends

theorem IsTidy.count_shownText (h : d.IsTidy d.blocks) (hb : b ∈ d.blocks)
    (hkind : b.kind = .doc) :
    (shownText d.profile b).toList.count '\n' = b.content.toList.count '\n' := by
  obtain ⟨comment, hcomment, -, -, hcount⟩ := h.spells b hb hkind
  rw [shownText, hcomment, Option.map_some, Option.getD_some, LineEnding.count_convert, hcount]

theorem terminated_of_endsLine {isLast : Bool} (h : EndsLine prose.toList) :
    terminated isLast prose = prose := by
  rw [terminated, if_pos]
  simp only [Bool.or_eq_true, decide_eq_true_eq]
  exact .inr h

/-- The source of a block that is shown at the place of another block. -/
theorem IsTidy.viewSource_at (h : d.IsTidy d.blocks) (hb : b ∈ d.blocks) (place : Option Block)
    (isLast : Bool) : d.viewSource place isLast (d.shown b) = d.respelled place b := by
  cases hkind : b.kind with
  | code =>
    have hown : d.viewSource (some b) isLast (d.shown b) = d.returned b :=
      viewSource_shown (fun hdoc => by cases hkind.symm.trans hdoc) (.inr (h.endsLine b hb))
    simp only [viewSource, shown, hkind] at hown ⊢
    rw [hown, h.returned b hb, respelled, hkind]
  | doc =>
    have hends := h.endsLine_shownText hb hkind
    simp only [viewSource, shown, respelled, hkind, docSource, terminated_of_endsLine hends]

theorem IsTidy.viewSources_at (h : d.IsTidy d.blocks) (hblocks : blocks ⊆ d.blocks)
    (places : List Block) :
    d.viewSources places (blocks.map d.shown) =
      blocks.mapIdx fun i b => d.respelled places[i]? b := by
  induction blocks generalizing places with
  | nil => rfl
  | cons b blocks ih =>
    obtain ⟨hb, hblocks⟩ := List.cons_subset.1 hblocks
    rw [List.map_cons, viewSources, h.viewSource_at hb, ih hblocks, List.mapIdx_cons,
      List.head?_eq_getElem?]
    simp

theorem not_mem_newDelimiter (hp : p.HasPlainComments) : '\n' ∉ (newDelimiter p).toList := by
  rw [newDelimiter]
  cases hlines : p.lineComments with
  | cons d ds => exact (hp.line d (by simp [hlines])).not_mem (by simp)
  | nil =>
    cases hblocks : p.blockComments with
    | cons b bs => exact (hp.opening b (by simp [hblocks])).not_mem (by simp)
    | nil => simp

/-- What a block comes back as at the place of another block ends a line, and has the line feeds of
    the block. -/
theorem IsTidy.respelled_spec (h : d.IsTidy d.blocks) (hp : d.profile.HasPlainComments)
    (hb : b ∈ d.blocks) (hplace : ∀ c ∈ place, c ∈ d.blocks) :
    EndsLine (d.respelled place b).toList ∧
      (d.respelled place b).toList.count '\n' = b.content.toList.count '\n' := by
  rw [respelled]
  split
  · exact ⟨h.endsLine b hb, rfl⟩
  · rename_i hkind
    have hends := h.endsLine_shownText hb hkind
    rw [← h.count_shownText hb hkind]
    generalize shownText d.profile b = prose at hends
    have hmarkedUp : ∀ indent delimiter : String, '\n' ∉ indent.toList → '\n' ∉ delimiter.toList →
        EndsLine (d.lineEnding.convert (markUp d.profile indent delimiter
          (terminated true prose))).toList ∧
        (d.lineEnding.convert (markUp d.profile indent delimiter
          (terminated true prose))).toList.count '\n' = prose.toList.count '\n' := by
      intro indent delimiter hindent hdelimiter
      rw [terminated_of_endsLine hends, LineEnding.count_convert, count_markUp hindent hdelimiter
        fun closing hclosing => (hp.isPlain_of_closingFor? hclosing).not_mem (by simp)]
      exact ⟨LineEnding.endsLine_convert _ (endsLine_markUp _ _ hends), rfl⟩
    rw [docSource]
    split
    · rename_i c comment hplaced
      obtain ⟨c', hc, hpair⟩ := Option.bind_eq_some_iff.1 hplaced
      obtain ⟨comment', hcomment', heq⟩ := Option.map_eq_some_iff.1 hpair
      obtain ⟨rfl, rfl⟩ := Prod.mk.inj heq
      obtain ⟨hmem, hdoc⟩ := Option.filter_eq_some_iff.1 hc
      have hc := hplace c' hmem
      obtain ⟨_, hcomment, hparse, -, hcount⟩ := h.spells c' hc (by simpa using hdoc)
      obtain rfl := Option.some.inj (hcomment.symm.trans hcomment')
      split
      · rename_i hsame
        rw [← hsame, LineEnding.count_convert, hcount]
        exact ⟨h.endsLine c' hc, rfl⟩
      · obtain ⟨hindent, hdelimiter⟩ := not_mem_of_parse? hp hparse
        exact hmarkedUp _ _ hindent hdelimiter
    · exact hmarkedUp _ _ (by simp) (not_mem_newDelimiter hp)

/-- The blocks make up the text that they hold where they come back as they are: line feeds are
    neither made nor lost, so the ends of the blocks stay in their places. -/
theorem IsTidy.join_viewSources_eq_iff (h : d.IsTidy d.blocks) (hp : d.profile.HasPlainComments)
    (hblocks : blocks ⊆ d.blocks) (hplaces : places ⊆ d.blocks) :
    String.join (d.viewSources places (blocks.map d.shown)) =
        String.join (blocks.map (·.content)) ↔
      ∀ (i : Nat) (b : Block), blocks[i]? = some b → b.kind = .doc →
        d.respelled places[i]? b = b.content := by
  induction blocks generalizing places with
  | nil => simp [viewSources]
  | cons b blocks ih =>
    obtain ⟨hb, hblocks⟩ := List.cons_subset.1 hblocks
    have htail := ih hblocks fun c hc => hplaces (List.mem_of_mem_tail hc)
    have hplace : ∀ c ∈ places.head?, c ∈ d.blocks := fun c hc =>
      hplaces (List.mem_of_mem_head? hc)
    obtain ⟨hends, hcount⟩ := h.respelled_spec hp hb hplace
    have hsplit : String.join (d.viewSources places ((b :: blocks).map d.shown)) =
          String.join ((b :: blocks).map (·.content)) ↔
        d.respelled places.head? b = b.content ∧
          String.join (d.viewSources places.tail (blocks.map d.shown)) =
            String.join (blocks.map (·.content)) := by
      rw [List.map_cons, List.map_cons, viewSources, h.viewSource_at hb, String.join_cons,
        String.join_cons]
      constructor
      · intro heq
        have hhead : d.respelled places.head? b = b.content := by
          have happend := congrArg String.toList heq
          rw [String.toList_append, String.toList_append] at happend
          exact String.toList_inj.1 (hends.eq_of_append_eq (h.endsLine b hb) hcount happend)
        rw [hhead] at heq
        refine ⟨hhead, String.toList_inj.1 ?_⟩
        simpa using congrArg String.toList heq
      · rintro ⟨hhead, htail⟩
        rw [hhead, htail]
    rw [hsplit, htail]
    constructor
    · rintro ⟨hhead, hrest⟩ i c hc hkind
      cases i with
      | zero =>
        obtain rfl : b = c := by simpa using hc
        rw [← List.head?_eq_getElem?]
        exact hhead
      | succ i =>
        have hrest := hrest i c (by simpa using hc) hkind
        rwa [List.getElem?_tail] at hrest
    · intro hall
      refine ⟨?_, fun i c hc hkind => ?_⟩
      · cases hkind : b.kind with
        | code => rw [respelled, hkind]
        | doc =>
          have hhead := hall 0 b rfl hkind
          rwa [← List.head?_eq_getElem?] at hhead
      · rw [List.getElem?_tail]
        exact hall (i + 1) c (by simpa using hc) hkind

theorem insertIdx_eq_take_append_drop {α : Type} {xs : List α} (hk : k ≤ xs.length) (x : α) :
    xs.insertIdx k x = xs.take k ++ x :: xs.drop k := by
  induction k generalizing xs with
  | zero => rfl
  | succ k ih =>
    cases xs with
    | nil => cases hk
    | cons y xs => rw [List.insertIdx_succ_cons, ih (Nat.le_of_succ_le_succ hk)]; rfl

theorem join_append_eq_iff {first second third : List String} :
    String.join (first ++ second) = String.join (first ++ third) ↔
      String.join second = String.join third := by
  rw [← String.toList_inj, ← String.toList_inj]
  simp only [toList_join, List.map_append, List.flatten_append, List.append_cancel_left_eq]

/-- The blocks before a place come back as they are. -/
theorem IsTidy.viewSources_take (h : d.IsTidy d.blocks) (k : Nat) (view : List ViewBlock) :
    d.viewSources d.blocks ((d.blocks.take k).map d.shown ++ view) =
      (d.blocks.take k).map (·.content) ++ d.viewSources (d.blocks.drop k) view := by
  have hsub := List.take_subset k d.blocks
  have hread : ∀ b ∈ d.blocks.take k, b.kind = .doc → (b.comment? d.profile).isSome := by
    intro b hb hkind
    obtain ⟨comment, hcomment, -⟩ := h.spells b (hsub hb) hkind
    exact Option.isSome_iff_exists.2 ⟨comment, hcomment⟩
  have happend := viewSources_append_shown hread (fun b hb => h.endsLine b (hsub hb))
    (d.blocks.drop k) view
  rwa [List.take_append_drop, List.map_congr_left fun b hb => h.returned b (hsub hb)] at happend

/-- The blocks from one place on come back as they are exactly where no doc block among them loses
    its markup at the places from another one on. -/
theorem IsTidy.join_drop_eq_iff (h : d.IsTidy d.blocks) (hp : d.profile.HasPlainComments)
    (j k : Nat) :
    String.join (d.viewSources (d.blocks.drop j) ((d.blocks.drop k).map d.shown)) =
        String.join ((d.blocks.drop k).map (·.content)) ↔
      ∀ (i : Nat) (b : Block), d.blocks[k + i]? = some b → b.kind = .doc →
        d.respelled d.blocks[j + i]? b = b.content := by
  rw [h.join_viewSources_eq_iff hp (List.drop_subset k _) (List.drop_subset j _)]
  simp only [List.getElem?_drop]

theorem IsTidy.viewSources_insertIdx (h : d.IsTidy d.blocks) (hk : k ≤ d.blocks.length)
    (v : ViewBlock) :
    d.viewSources d.blocks (d.rendered.insertIdx k v) = (d.blocks.take k).map (·.content) ++
      d.viewSource d.blocks[k]? (k = d.blocks.length) v ::
        d.viewSources (d.blocks.drop (k + 1)) ((d.blocks.drop k).map d.shown) := by
  have hshown : d.rendered.insertIdx k v =
      (d.blocks.take k).map d.shown ++ v :: (d.blocks.drop k).map d.shown := by
    rw [List.map_take, List.map_drop]
    exact insertIdx_eq_take_append_drop (by simpa [rendered_eq] using hk) v
  have hlast : ((d.blocks.drop k).map d.shown).isEmpty = decide (k = d.blocks.length) := by
    rw [Bool.eq_iff_iff]
    simp
    omega
  rw [hshown, h.viewSources_take, viewSources, List.head?_drop, List.tail_drop, hlast]

theorem IsTidy.viewSources_eraseIdx (h : d.IsTidy d.blocks) (k : Nat) :
    d.viewSources d.blocks (d.rendered.eraseIdx k) = (d.blocks.take k).map (·.content) ++
      d.viewSources (d.blocks.drop k) ((d.blocks.drop (k + 1)).map d.shown) := by
  have hshown : d.rendered.eraseIdx k =
      (d.blocks.take k).map d.shown ++ (d.blocks.drop (k + 1)).map d.shown := by
    rw [List.map_take, List.map_drop]
    exact List.eraseIdx_eq_take_drop_succ _ k
  rw [hshown, h.viewSources_take]

/-- A block of a view that is new at a place, or gone from it, leaves the blocks before that place as
    they are, and all code. Each doc block behind it is shown at the place of a neighbour, whose
    markup it takes on. So the text of all other blocks is kept exactly where none of these doc blocks
    loses its own markup, and in particular if no doc block comes behind the place. -/
theorem viewText_of_shift [RegexLibrary] (hp : p ∈ Profile.builtin) (h : ofText p text = .ok d)
    {e : LineEnding} (hstyle : LineEnding.isUniform e text.toList = true)
    (hends : EndsLine text.toList) :
    (∀ k ≤ d.blocks.length, ∀ v : ViewBlock,
      let source := d.viewSource d.blocks[k]? (k = d.blocks.length) v
      let view := d.rendered.insertIdx k v
      d.viewText view = String.join ((d.blocks.take k).map (·.content) ++ source ::
        (d.blocks.drop k).mapIdx fun i b => d.respelled d.blocks[k + 1 + i]? b) ∧
      (d.viewText view = String.join ((d.blocks.map (·.content)).insertIdx k source) ↔
        ∀ (i : Nat) (b : Block), d.blocks[k + i]? = some b → b.kind = .doc →
          d.respelled d.blocks[k + 1 + i]? b = b.content)) ∧
    ∀ k < d.blocks.length,
      let view := d.rendered.eraseIdx k
      d.viewText view = String.join ((d.blocks.take k).map (·.content) ++
        (d.blocks.drop (k + 1)).mapIdx fun i b => d.respelled d.blocks[k + i]? b) ∧
      (d.viewText view = String.join ((d.blocks.map (·.content)).eraseIdx k) ↔
        ∀ (i : Nat) (b : Block), d.blocks[k + 1 + i]? = some b → b.kind = .doc →
          d.respelled d.blocks[k + i]? b = b.content) := by
  have hplain := Profile.hasPlainComments_of_mem_builtin hp
  have htidy := isTidy_of_ofText hplain h hstyle hends
  obtain ⟨-, rfl, -⟩ := exists_spans_of_openWith h
  refine ⟨fun k hk v => ?_, fun k _ => ?_⟩
  · intro source view
    have hsources : d.viewSources d.blocks view = (d.blocks.take k).map (·.content) ++
        source :: d.viewSources (d.blocks.drop (k + 1)) ((d.blocks.drop k).map d.shown) :=
      htidy.viewSources_insertIdx hk v
    refine ⟨?_, ?_⟩
    · rw [viewText, hsources, htidy.viewSources_at (List.drop_subset k _)]
      simp only [List.getElem?_drop]
    · rw [viewText, hsources, insertIdx_eq_take_append_drop (by simpa using hk), ← List.map_take,
        ← List.map_drop, join_append_eq_iff]
      rw [← List.singleton_append, ← List.singleton_append (l := (d.blocks.drop k).map (·.content)),
        join_append_eq_iff]
      exact htidy.join_drop_eq_iff hplain _ _
  · intro view
    have hsources := htidy.viewSources_eraseIdx k
    refine ⟨?_, ?_⟩
    · rw [viewText, hsources, htidy.viewSources_at (List.drop_subset (k + 1) _)]
      simp only [List.getElem?_drop]
    · rw [viewText, hsources, List.eraseIdx_eq_take_drop_succ, ← List.map_take, ← List.map_drop,
        join_append_eq_iff, htidy.join_drop_eq_iff hplain]

/-- Code that is put before a block comment turns it into a line comment, by the place that it is
    shown at then. Code that is put behind it leaves it as it is. -/
theorem viewText_of_shift_block_comment :
    let p : Profile := .cLike "json5" [".json", ".json5"] Profile.quotes
    let text := "[1]\n/* a */\n"
    let d := build p .unseeded [⟨.code, "[1]\n", ⟨0, 4⟩⟩, ⟨.doc, "/* a */\n", ⟨4, 12⟩⟩]
    let v : ViewBlock := ⟨.code, "json5", "[2]\n"⟩
    ofText p text = .ok d ∧
      d.viewText (d.rendered.insertIdx 0 v) = "[2]\n[1]\n// a\n" ∧
      d.viewText (d.rendered.insertIdx 2 v) = "[1]\n/* a */\n[2]\n" := by
  intro p text d v
  have hd : ofText p text = .ok d := by decide +kernel
  obtain ⟨hinsert, -⟩ := viewText_of_shift (e := .lf) (by decide +kernel) hd (by decide +kernel)
    (by decide)
  refine ⟨hd, (hinsert 0 (by decide) v).1.trans (by decide +kernel), ?_⟩
  refine ((hinsert 2 (by decide) v).2.2 fun i b hb => ?_).trans (by decide +kernel)
  rw [List.getElem?_eq_none (by simp [d, build, nameSegments])] at hb
  cases hb

end LiterateSync.Document
