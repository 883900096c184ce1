import Mathlib.Data.Set.Card
import SayScript.Proofs.Brackets

/-! # The advice on layout is about matching

    `Layout.advise` goes through the lines once, with the indentations of the
    open blocks on a stack.  Here it is compared with the matching of openers
    and closers: each line gets the warning that its place among the brackets
    calls for, and no other, and the warnings stand in the order of their
    lines.

    The stack of the advice is the stack of `Layout.opened` with all but the
    indentations forgotten, so each of its warnings depends on the line and
    the opener on top, `warning?`; what that opener is to the line was shown
    for brackets. -/

namespace SayScript.Layout

/-- The warnings that the matching calls for, line by line. -/
inductive Due (ls : List Line) : Line → LayoutWarning → Prop where
  /-- A closer matches no opener. -/
  | endWithoutBlock {c} : IsStray ls c → Due ls c (.endWithoutBlock c.number)
  /-- A closer is not indented like its opener. -/
  | endMismatch {o c} : Matches ls o c → o.indent ≠ c.indent →
      Due ls c (.endMismatch c.number o.indent c.indent)
  /-- A plain line is not indented deeper than the opener around it. -/
  | insufficientIndent {o l} : l ∈ ls → l.IsPlain → IsInnermost ls o l →
      l.indent ≤ o.indent →
      Due ls l (.insufficientIndent l.number o.indent l.indent)

/-- The warning about a line that comes when these openers are open. -/
def warning? (stack : List Line) (l : Line) : Option LayoutWarning :=
  match stack.head? with
  | none =>
    if l.IsCloser then some (.endWithoutBlock l.number) else none
  | some o =>
    if l.IsCloser then
      if o.indent = l.indent then none
      else some (.endMismatch l.number o.indent l.indent)
    else if l.IsOpener then none
    else if o.indent < l.indent then none
    else some (.insufficientIndent l.number o.indent l.indent)

/-- The warnings about lines that come when these openers are open, each with
    its line. -/
def lineWarnings (stack : List Line) :
    List Line → List (Line × LayoutWarning)
  | [] => []
  | l :: ls =>
    ((warning? stack l).map (l, ·)).toList ++ lineWarnings (push stack l) ls

variable {ls before after stack : List Line} {l : Line} {w : LayoutWarning}

/-! ## What the advice computes -/

/-- The state of the advice when these openers are open. -/
def State.ofStack (stack : List Line) (ws : List LayoutWarning) : State where
  depths := stack.map Line.indent
  warnings := ws

/-- **What one line does.**  It goes on the stack of openers or takes one
    off, and adds the warning about it. -/
theorem State.look_ofStack (stack : List Line) (ws : List LayoutWarning)
    (l : List Char × Nat) :
    (ofStack stack ws).look (Prod.map id Text.lineNumber l) =
      match Line.ofPlaced? l with
      | none => ofStack stack ws
      | some line =>
        ofStack (push stack line) ((warning? stack line).toList ++ ws) := by
  obtain ⟨text, place⟩ := l
  rw [Prod.map_apply, id]
  unfold look Line.ofPlaced?
  cases hcontent : Text.content? text with
  | none => simp [hcontent]
  | some content =>
    simp only [hcontent, Option.map_some, push, warning?, Line.isCloser_iff,
      Line.isOpener_iff]
    split
    · cases stack with
      | nil => rfl
      | cons o stack =>
        simp only [close, ofStack, List.map_cons, List.head?_cons,
          List.tail_cons]
        split <;> rfl
    · split
      · cases stack <;> rfl
      · cases stack with
        | nil => rfl
        | cons o stack =>
          simp only [plain, ofStack, List.map_cons, List.head?_cons]
          split <;> rfl

/-- **What all lines do.** -/
theorem State.foldl_look (placed : List (List Char × Nat))
    (stack : List Line) (ws : List LayoutWarning) :
    (placed.map (Prod.map id Text.lineNumber)).foldl look (ofStack stack ws) =
      ofStack ((placed.filterMap Line.ofPlaced?).foldl push stack)
        (((lineWarnings stack
          (placed.filterMap Line.ofPlaced?)).map Prod.snd).reverse ++ ws) := by
  induction placed generalizing stack ws with
  | nil => rfl
  | cons l placed ih =>
    rw [List.map_cons, List.foldl_cons, look_ofStack, List.filterMap_cons]
    cases hline : Line.ofPlaced? l with
    | none => exact ih stack ws
    | some line =>
      simp only
      rw [ih, List.foldl_cons, lineWarnings, List.map_append,
        List.reverse_append, List.append_assoc]
      cases warning? stack line <;> rfl

theorem advise_eq (script : String) :
    advise script = (lineWarnings [] (linesOf script)).map Prod.snd ++
      if (opened (linesOf script)).isEmpty then []
      else [.unclosedBlocks (opened (linesOf script)).length] := by
  have hfold := State.foldl_look (Text.placedLines script.toList) [] []
  have hadvise : advise script =
      (((Text.placedLines script.toList).map
        (Prod.map id Text.lineNumber)).foldl State.look
          (State.ofStack [] [])).finish := rfl
  rw [hadvise, hfold]
  simp [State.finish, State.ofStack, opened, linesOf]

/-! ## The warnings about lines -/

theorem ne_unclosedBlocks_of_warning? (h : warning? stack l = some w)
    (count : Nat) : w ≠ .unclosedBlocks count := by
  unfold warning? at h
  split at h
  · split at h <;> cases h
    simp
  · split at h
    · split at h <;> cases h
      simp
    · split at h
      · cases h
      · split at h <;> cases h
        simp

/-- Each line has one warning at most, in the order of the lines. -/
theorem lineWarnings_sublist (stack ls : List Line) :
    ((lineWarnings stack ls).map Prod.fst).Sublist ls := by
  induction ls generalizing stack with
  | nil => exact .slnil
  | cons l ls ih =>
    rw [lineWarnings, List.map_append]
    cases hw : warning? stack l with
    | none => exact (ih _).cons _
    | some w => exact (ih _).cons_cons _

theorem mem_lineWarnings_iff : (l, w) ∈ lineWarnings stack ls ↔
    ∃ before after, ls = before ++ l :: after ∧
      warning? (before.foldl push stack) l = some w := by
  induction ls generalizing stack with
  | nil => simp [lineWarnings]
  | cons first ls ih =>
    have hfirst : (l, w) ∈ ((warning? stack first).map (first, ·)).toList ↔
        first = l ∧ warning? stack first = some w := by
      simp [and_comm]
    rw [lineWarnings, List.mem_append, hfirst, ih]
    constructor
    · rintro (⟨rfl, hw⟩ | ⟨before, after, rfl, hw⟩)
      · exact ⟨[], ls, rfl, hw⟩
      · exact ⟨first :: before, after, rfl, hw⟩
    · rintro ⟨before, after, hsplit, hw⟩
      cases before with
      | nil =>
        cases hsplit
        exact .inl ⟨rfl, hw⟩
      | cons _ before =>
        cases hsplit
        exact .inr ⟨before, after, rfl, hw⟩

/-- What the opener on top of the stack is to a line. -/
theorem due_of_warning? (horder : InOrder (before ++ l :: after))
    (h : warning? (opened before) l = some w) :
    Due (before ++ l :: after) l w := by
  have hmem : l ∈ before ++ l :: after := by simp
  have hnodup := horder.nodup
  unfold warning? at h
  split at h
  · rename_i hnone
    split at h
    · rename_i hc
      cases h
      refine .endWithoutBlock ⟨hmem, hc, fun o hmatch => ?_⟩
      rw [matches_at_iff hnodup hc, hnone] at hmatch
      cases hmatch
    · cases h
  · rename_i o htop
    split at h
    · rename_i hc
      split at h
      · cases h
      · cases h
        exact .endMismatch ((matches_at_iff hnodup hc).mpr htop) ‹_›
    · rename_i hc
      split at h
      · cases h
      · rename_i ho
        split at h
        · cases h
        · cases h
          exact .insufficientIndent hmem ⟨ho, hc⟩
            ((isInnermost_iff horder hc).mpr htop) (by omega)

theorem warning?_of_due (horder : InOrder ls) (h : Due ls l w) :
    ∃ before after, ls = before ++ l :: after ∧
      warning? (opened before) l = some w := by
  cases h with
  | @endWithoutBlock c hstray =>
    obtain ⟨hmem, hc, hno⟩ := hstray
    obtain ⟨before, after, rfl⟩ := List.append_of_mem hmem
    have htop : (opened before).head? = none := by
      cases htop : (opened before).head? with
      | none => rfl
      | some o =>
        exact absurd ((matches_at_iff horder.nodup hc).mpr htop) (hno o)
    exact ⟨before, after, rfl, by simp [warning?, htop, hc]⟩
  | @endMismatch o c hmatch hne =>
    obtain ⟨hc, before, after, rfl, htop⟩ := matches_iff.mp hmatch
    exact ⟨before, after, rfl, by simp [warning?, htop, hc, hne]⟩
  | @insufficientIndent o l hmem hplain hinner hle =>
    obtain ⟨before, after, rfl⟩ := List.append_of_mem hmem
    have htop := (isInnermost_iff horder hplain.2).mp hinner
    have hlt : ¬ o.indent < l.indent := by omega
    exact ⟨before, after, rfl,
      by simp [warning?, htop, hplain.1, hplain.2, hlt]⟩

theorem mem_lineWarnings_iff_due (horder : InOrder ls) :
    (l, w) ∈ lineWarnings [] ls ↔ Due ls l w := by
  rw [mem_lineWarnings_iff]
  constructor
  · rintro ⟨before, after, rfl, hw⟩
    exact due_of_warning? horder hw
  · exact warning?_of_due horder

/-- The advice tells the number of open blocks at the end, if there are
    any. -/
theorem unclosedBlocks_mem_advise_iff {script : String} {count : Nat} :
    .unclosedBlocks count ∈ advise script ↔
      count = (opened (linesOf script)).length ∧ 0 < count := by
  -- the warnings before are about lines
  have hline : .unclosedBlocks count ∉
      (lineWarnings [] (linesOf script)).map Prod.snd := by
    intro hmem
    obtain ⟨⟨l, w⟩, hmem, rfl⟩ := List.mem_map.mp hmem
    obtain ⟨before, after, -, hw⟩ := mem_lineWarnings_iff.mp hmem
    exact ne_unclosedBlocks_of_warning? hw count rfl
  rw [advise_eq, List.mem_append, or_iff_right hline]
  cases hopened : opened (linesOf script) with
  | nil =>
    rw [if_pos List.isEmpty_nil]
    refine iff_of_false List.not_mem_nil fun h => ?_
    rw [h.1] at h
    exact Nat.lt_irrefl 0 h.2
  | cons top stack =>
    rw [if_neg (by simp), List.mem_singleton,
      LayoutWarning.unclosedBlocks.injEq]
    refine ⟨fun h => ⟨h, ?_⟩, And.left⟩
    rw [h]
    exact Nat.zero_lt_succ _

/-! ## The matching -/

theorem length_opened (hnodup : ls.Nodup) :
    (opened ls).length = {o | IsUnclosed ls o}.ncard := by
  have hset : {o | IsUnclosed ls o} = ((opened ls).toFinset : Set Line) := by
    ext o
    simp [mem_opened_iff hnodup]
  rw [hset, Set.ncard_coe_finset,
    List.toFinset_card_of_nodup (nodup_opened hnodup)]

/-- With fewer than 2^32 lines, the number of each line is its place. -/
theorem number_of_mem_linesOf {script : String}
    (hlines : (Text.lines script.toList).length < UInt32.size)
    (h : l ∈ linesOf script) : l.number = l.place := by
  obtain ⟨placed, hmem, hl⟩ := List.mem_filterMap.mp h
  obtain ⟨content, -, rfl⟩ := Option.map_eq_some_iff.mp hl
  have hplace := (Text.place_of_mem_placedLines hmem).2
  exact Text.lineNumber_of_lt (Nat.lt_of_le_of_lt hplace hlines)

/-- **The advice is about matching.**  Match the openers and closers among
    the lines of a script as brackets.  The advice consists of warnings about
    single lines, in the order of the lines and at most one about each: about
    exactly the closers that match nothing, those that are not indented like
    their opener, and the plain lines not indented deeper than the innermost
    opener around them.  Then one warning follows with the number of openers
    without a closer, if there are any.

    A warning gives the number of its line, which is the place of the line as
    long as there are fewer than 2^32 of them. -/
theorem advise_matching (script : String) :
    ∃ ws : List (Line × LayoutWarning),
      advise script = ws.map Prod.snd ++
        (if {o | IsUnclosed (linesOf script) o}.ncard = 0 then []
        else [.unclosedBlocks {o | IsUnclosed (linesOf script) o}.ncard]) ∧
      ws.Pairwise (fun w w' => w.1.place < w'.1.place) ∧
      (∀ l w, (l, w) ∈ ws ↔ Due (linesOf script) l w) ∧
      ((Text.lines script.toList).length < UInt32.size →
        ∀ l ∈ linesOf script, l.number = l.place) := by
  have horder := inOrder_linesOf script
  refine ⟨lineWarnings [] (linesOf script), ?_, ?_, ?_, ?_⟩
  · rw [advise_eq, ← length_opened horder.nodup]
    cases opened (linesOf script) <;> simp
  · have hsorted : InOrder ((lineWarnings [] (linesOf script)).map Prod.fst) :=
      List.Pairwise.sublist (lineWarnings_sublist [] _) horder
    rwa [InOrder, List.pairwise_map] at hsorted
  · intro l w
    exact mem_lineWarnings_iff_due horder
  · intro hlines l hl
    exact number_of_mem_linesOf hlines hl

end SayScript.Layout
