import Mathlib.Data.List.Induction
import Mathlib.Data.List.Nodup
import SayScript.Layout
import SayScript.Proofs.Numbering

/-! # Lines as brackets

    A line that starts with `function`, `start`, `if`, `elif` or `else` opens
    a block, and the line `end` closes one.  Which opener belongs to which
    closer is defined here as for brackets: the two match if what stands
    between them is balanced.  Nothing in this definition is computed from
    left to right.

    `Layout.opened` is the stack of a reader of lines.  It computes the
    matching: a closer matches the opener on top of the stack before it,
    `matches_iff`, and what is left at the end are the openers without a
    closer, `mem_opened_iff`.  Balanced lines leave every stack as it is; for
    the other direction the lines above an opener on the stack are shown to
    be balanced, `exists_inside`. -/

namespace SayScript.Layout

/-- A line that says something. -/
structure Line where
  /-- Its place among the lines of the script, counted from 1. -/
  place : Nat
  /-- The number of spaces it starts with. -/
  indent : Nat
  /-- What it says, trimmed. -/
  content : List Char
  deriving DecidableEq, Repr

/-- A line of a script with its place; none if it says nothing. -/
def Line.ofPlaced? (l : List Char × Nat) : Option Line :=
  (Text.content? l.1).map fun content =>
    { place := l.2, indent := indentation l.1, content }

/-- The lines of a script that say something. -/
def linesOf (script : String) : List Line :=
  (Text.placedLines script.toList).filterMap Line.ofPlaced?

/-- Does the character end the first word of a line? -/
def endsFirstWord (c : Char) : Bool :=
  Text.isBlank c || c = ':'

namespace Line

/-- The number of the line. -/
def number (l : Line) : Nat :=
  Text.lineNumber l.place

/-- The line says `end`. -/
def IsCloser (l : Line) : Prop :=
  l.content = "end".toList

/-- The first word of the line, up to a blank or a colon, opens a block. -/
def IsOpener (l : Line) : Prop :=
  ∃ word ∈ openers, ∃ rest, l.content = word.toList ++ rest ∧
    ∀ c ∈ rest.head?, endsFirstWord c

/-- The line neither opens nor closes a block. -/
def IsPlain (l : Line) : Prop :=
  ¬ l.IsOpener ∧ ¬ l.IsCloser

theorem isCloser_iff (l : Line) : l.IsCloser ↔ closesBlock l.content := by
  simp [IsCloser, closesBlock]

theorem firstWord_append {word rest : List Char}
    (hword : ∀ c ∈ word, endsFirstWord c = false)
    (hrest : ∀ c ∈ rest.head?, endsFirstWord c) :
    firstWord (word ++ rest) = word := by
  have hfirst : firstWord (word ++ rest) =
      (word ++ rest).takeWhile (!endsFirstWord ·) := rfl
  rw [hfirst, List.takeWhile_append_of_pos (by simpa using hword)]
  cases rest with
  | nil => simp
  | cons c rest => simp [hrest c rfl]

theorem isOpener_iff (l : Line) : l.IsOpener ↔ opensBlock l.content := by
  unfold opensBlock
  rw [decide_eq_true_iff]
  constructor
  · rintro ⟨word, hword, rest, hcontent, hrest⟩
    have hopeners : openers.all (·.toList.all (!endsFirstWord ·)) := by decide
    have hsolid : ∀ c ∈ word.toList, endsFirstWord c = false := by
      simpa using List.all_eq_true.mp hopeners word hword
    rw [hcontent, firstWord_append hsolid hrest, String.ofList_toList]
    exact hword
  · intro hword
    refine ⟨_, hword, l.content.dropWhile (!endsFirstWord ·), ?_, ?_⟩
    · rw [String.toList_ofList]
      exact List.takeWhile_append_dropWhile.symm
    · intro c hc
      have hnot := List.head?_dropWhile_not (!endsFirstWord ·) l.content
      rw [hc] at hnot
      simpa using hnot

instance : DecidablePred IsCloser := fun l =>
  inferInstanceAs (Decidable (l.content = _))

instance : DecidablePred IsOpener := fun l =>
  decidable_of_iff _ l.isOpener_iff.symm

theorem IsCloser.not_isOpener {l : Line} (h : l.IsCloser) : ¬ l.IsOpener := by
  rw [isOpener_iff, h]
  decide

end Line

/-! ## Matching -/

/-- All openers and closers among the lines match each other. -/
inductive Balanced : List Line → Prop where
  | nil : Balanced []
  | plain {l ls} : l.IsPlain → Balanced ls → Balanced (l :: ls)
  | block {o inside c rest} : o.IsOpener → Balanced inside → c.IsCloser →
      Balanced rest → Balanced (o :: (inside ++ c :: rest))

/-- The opener `o` and the closer `c` belong together. -/
structure Matches (ls : List Line) (o c : Line) : Prop where
  opener : o.IsOpener
  closer : c.IsCloser
  between : ∃ before inside after,
    ls = before ++ o :: (inside ++ c :: after) ∧ Balanced inside

/-- The line is an opener without a closer. -/
def IsUnclosed (ls : List Line) (o : Line) : Prop :=
  o ∈ ls ∧ o.IsOpener ∧ ∀ c, ¬ Matches ls o c

/-- The line is a closer without an opener. -/
def IsStray (ls : List Line) (c : Line) : Prop :=
  c ∈ ls ∧ c.IsCloser ∧ ∀ o, ¬ Matches ls o c

/-- The line `l` stands inside the block that `o` opens: it comes after `o`,
    and `o` is not closed before it. -/
structure Encloses (ls : List Line) (o l : Line) : Prop where
  mem : o ∈ ls
  opener : o.IsOpener
  after : o.place < l.place
  notClosed : ∀ c, Matches ls o c → l.place < c.place

/-- Of the openers that `l` stands inside, `o` is the last one. -/
def IsInnermost (ls : List Line) (o l : Line) : Prop :=
  Encloses ls o l ∧ ∀ o', Encloses ls o' l → o'.place ≤ o.place

/-! ## The stack of open lines -/

/-- One more line on the stack of openers that are not closed yet. -/
def push (stack : List Line) (l : Line) : List Line :=
  if l.IsCloser then stack.tail
  else if l.IsOpener then l :: stack
  else stack

/-- The openers that are not closed when the lines have ended, the last one
    first. -/
def opened (ls : List Line) : List Line :=
  ls.foldl push []

variable {ls before inside after stack : List Line} {l o c : Line}

theorem push_of_isCloser (h : l.IsCloser) : push stack l = stack.tail :=
  if_pos h

theorem push_of_isOpener (h : l.IsOpener) : push stack l = l :: stack := by
  rw [push, if_neg fun hc => hc.not_isOpener h, if_pos h]

theorem push_of_isPlain (h : l.IsPlain) : push stack l = stack := by
  rw [push, if_neg h.2, if_neg h.1]

theorem opened_concat (ls : List Line) (l : Line) :
    opened (ls ++ [l]) = push (opened ls) l := by
  rw [opened, List.foldl_concat]
  rfl

/-- A line opens a block, closes one, or is plain. -/
theorem isOpener_or_isCloser_or_isPlain (l : Line) :
    l.IsOpener ∨ l.IsCloser ∨ l.IsPlain := by
  by_cases ho : l.IsOpener
  · exact .inl ho
  · by_cases hc : l.IsCloser
    · exact .inr (.inl hc)
    · exact .inr (.inr ⟨ho, hc⟩)

theorem Balanced.append (h : Balanced ls) (h' : Balanced after) :
    Balanced (ls ++ after) := by
  induction h with
  | nil => exact h'
  | plain hplain _ ih => exact .plain hplain ih
  | block ho hinside hc _ _ ih =>
    rw [List.cons_append, List.append_assoc, List.cons_append]
    exact .block ho hinside hc ih

/-- Balanced lines leave every stack as it is. -/
theorem Balanced.foldl_push (h : Balanced ls) (stack : List Line) :
    ls.foldl push stack = stack := by
  induction h generalizing stack with
  | nil => rfl
  | plain hplain _ ih => rw [List.foldl_cons, push_of_isPlain hplain, ih]
  | block ho _ hc _ ihInside ihRest =>
    rw [List.foldl_cons, List.foldl_append, List.foldl_cons,
      push_of_isOpener ho, ihInside, push_of_isCloser hc, ihRest,
      List.tail_cons]

theorem opened_append_opener (ho : o.IsOpener) (hinside : Balanced inside) :
    opened (before ++ o :: inside) = o :: opened before := by
  rw [opened, List.foldl_append, List.foldl_cons, push_of_isOpener ho,
    hinside.foldl_push]
  rfl

/-- What comes after the opener on top of the stack is balanced, and what
    comes before it left the rest of the stack. -/
theorem exists_inside (h : opened ls = o :: stack) :
    ∃ before inside, ls = before ++ o :: inside ∧ o.IsOpener ∧
      Balanced inside ∧ opened before = stack := by
  induction hlength : ls.length using Nat.strongRecOn
    generalizing ls o stack with
  | ind n ih =>
    rcases List.eq_nil_or_concat ls with rfl | ⟨init, l, rfl⟩
    · cases h
    · rw [List.length_concat] at hlength
      rw [List.concat_eq_append, opened_concat] at h
      rcases isOpener_or_isCloser_or_isPlain l with ho | hc | hplain
      · rw [push_of_isOpener ho] at h
        cases h
        exact ⟨init, [], by simp, ho, .nil, rfl⟩
      · -- the closer took an opener off, and below it stands `o`
        rw [push_of_isCloser hc] at h
        obtain ⟨top, htop⟩ : ∃ top, opened init = top :: o :: stack := by
          cases hinit : opened init with
          | nil =>
            rw [hinit] at h
            cases h
          | cons top rest =>
            rw [hinit, List.tail_cons] at h
            exact ⟨top, by rw [h]⟩
        obtain ⟨outer, inner, hsplit, hopener, hinner, houter⟩ :=
          ih init.length (by omega) htop rfl
        have hshorter : outer.length < n := by
          rw [hsplit, List.length_append] at hlength
          omega
        obtain ⟨before, inside, rfl, ho, hinside, hbefore⟩ :=
          ih outer.length hshorter houter rfl
        refine ⟨before, inside ++ top :: (inner ++ l :: []), ?_, ho, ?_,
          hbefore⟩
        · simp [hsplit]
        · exact hinside.append (.block hopener hinner hc .nil)
      · rw [push_of_isPlain hplain] at h
        obtain ⟨before, inside, rfl, ho, hinside, hbefore⟩ :=
          ih init.length (by omega) h rfl
        refine ⟨before, inside ++ [l], by simp, ho, ?_, hbefore⟩
        exact hinside.append (.plain hplain .nil)

/-- **A closer matches the opener on top of the stack before it.** -/
theorem matches_iff : Matches ls o c ↔ c.IsCloser ∧
    ∃ before after, ls = before ++ c :: after ∧
      (opened before).head? = some o := by
  constructor
  · rintro ⟨ho, hc, before, inside, after, rfl, hinside⟩
    refine ⟨hc, before ++ o :: inside, after, by simp, ?_⟩
    rw [opened_append_opener ho hinside]
    rfl
  · rintro ⟨hc, before, after, rfl, hhead⟩
    obtain ⟨stack, hstack⟩ := List.head?_eq_some_iff.mp hhead
    obtain ⟨before, inside, rfl, ho, hinside, -⟩ := exists_inside hstack
    exact ⟨ho, hc, before, inside, after, by simp, hinside⟩

theorem Matches.append (h : Matches ls o c) (after : List Line) :
    Matches (ls ++ after) o c := by
  obtain ⟨hc, before, rest, rfl, hhead⟩ := matches_iff.mp h
  exact matches_iff.mpr ⟨hc, before, rest ++ after, by simp, hhead⟩

theorem Matches.mem (h : Matches ls o c) : o ∈ ls ∧ c ∈ ls := by
  obtain ⟨-, -, before, inside, after, rfl, -⟩ := h
  simp

/-- One line more is matched with the top of the stack, if it is a closer,
    and matches nothing else. -/
theorem matches_concat_iff : Matches (ls ++ [l]) o c ↔
    Matches ls o c ∨ (c = l ∧ l.IsCloser ∧ (opened ls).head? = some o) := by
  constructor
  · intro h
    obtain ⟨hc, before, after, hsplit, hhead⟩ := matches_iff.mp h
    rcases List.eq_nil_or_concat after with rfl | ⟨init, last, rfl⟩
    · obtain ⟨rfl, hl⟩ := List.append_inj' hsplit rfl
      cases hl
      exact .inr ⟨rfl, hc, hhead⟩
    · rw [List.concat_eq_append, ← List.cons_append, ← List.append_assoc]
        at hsplit
      obtain ⟨rfl, -⟩ := List.append_inj' hsplit rfl
      exact .inl (matches_iff.mpr ⟨hc, before, init, rfl, hhead⟩)
  · rintro (h | ⟨rfl, hc, hhead⟩)
    · exact h.append [l]
    · exact matches_iff.mpr ⟨hc, ls, [], rfl, hhead⟩

/-- The stack holds lines in the order opposite to that of the script. -/
theorem opened_sublist (ls : List Line) : (opened ls).Sublist ls.reverse := by
  induction ls using List.reverseRecOn with
  | nil => exact .slnil
  | append_singleton ls l ih =>
    rw [opened_concat, List.reverse_concat]
    rcases isOpener_or_isCloser_or_isPlain l with ho | hc | hplain
    · rw [push_of_isOpener ho]
      exact ih.cons_cons l
    · rw [push_of_isCloser hc]
      exact ((List.tail_sublist _).trans ih).cons l
    · rw [push_of_isPlain hplain]
      exact ih.cons l

theorem mem_of_mem_opened (h : o ∈ opened ls) : o ∈ ls :=
  List.mem_reverse.mp ((opened_sublist ls).subset h)

theorem nodup_opened (h : ls.Nodup) : (opened ls).Nodup :=
  (List.nodup_reverse.mpr h).sublist (opened_sublist ls)

/-- An opener stays without a closer unless it is on top of the stack and
    the next line is a closer. -/
theorem isUnclosed_concat_iff (hne : o ≠ l) : IsUnclosed (ls ++ [l]) o ↔
    IsUnclosed ls o ∧ ¬ (l.IsCloser ∧ (opened ls).head? = some o) := by
  have hmem : o ∈ ls ++ [l] ↔ o ∈ ls := by simp [hne]
  unfold IsUnclosed
  rw [hmem]
  constructor
  · rintro ⟨ho, hopener, hopen⟩
    refine ⟨⟨ho, hopener, fun c hmatch => hopen c (hmatch.append [l])⟩, ?_⟩
    rintro ⟨hc, htop⟩
    exact hopen l (matches_concat_iff.mpr (.inr ⟨rfl, hc, htop⟩))
  · rintro ⟨⟨ho, hopener, hopen⟩, htop⟩
    refine ⟨ho, hopener, fun c hmatch => ?_⟩
    rcases matches_concat_iff.mp hmatch with hmatch | ⟨-, hmatch⟩
    · exact hopen c hmatch
    · exact htop hmatch

theorem isUnclosed_concat_self (hnew : l ∉ ls) :
    IsUnclosed (ls ++ [l]) l ↔ l.IsOpener := by
  constructor
  · exact fun h => h.2.1
  · intro ho
    refine ⟨by simp, ho, fun c hmatch => ?_⟩
    -- a closer comes after its opener, and none comes after `l`
    rcases matches_concat_iff.mp hmatch with hmatch | ⟨-, hc, -⟩
    · exact hnew hmatch.mem.1
    · exact hc.not_isOpener ho

/-- **The openers left on the stack are those without a closer.** -/
theorem mem_opened_iff (hnodup : ls.Nodup) :
    o ∈ opened ls ↔ IsUnclosed ls o := by
  induction ls using List.reverseRecOn with
  | nil => simp [opened, IsUnclosed]
  | append_singleton ls l ih =>
    obtain ⟨hls, -, hapart⟩ := List.nodup_append.mp hnodup
    have hnew : l ∉ ls := fun hmem =>
      hapart l hmem l (List.mem_singleton_self l) rfl
    rw [opened_concat]
    by_cases heq : o = l
    · subst heq
      rw [isUnclosed_concat_self hnew]
      have hmem : o ∉ opened ls := fun hmem => hnew (mem_of_mem_opened hmem)
      rcases isOpener_or_isCloser_or_isPlain o with ho | hc | hplain
      · simp [push_of_isOpener ho, ho]
      · rw [push_of_isCloser hc]
        exact iff_of_false (fun h => hmem (List.mem_of_mem_tail h))
          hc.not_isOpener
      · rw [push_of_isPlain hplain]
        exact iff_of_false hmem hplain.1
    · rw [isUnclosed_concat_iff heq, ← ih hls]
      rcases isOpener_or_isCloser_or_isPlain l with ho | hc | hplain
      · have hcloser : ¬ l.IsCloser := fun hc => hc.not_isOpener ho
        simp [push_of_isOpener ho, heq, hcloser]
      · have hstack := nodup_opened hls
        rw [push_of_isCloser hc]
        cases hopened : opened ls with
        | nil => simp
        | cons top stack =>
          rw [hopened, List.nodup_cons] at hstack
          grind
      · simp [push_of_isPlain hplain, hplain.2]

/-! ## Places in a script -/

/-- In a list without repetitions a line has one place. -/
theorem matches_at_iff (hnodup : (before ++ c :: after).Nodup)
    (hc : c.IsCloser) :
    Matches (before ++ c :: after) o c ↔ (opened before).head? = some o := by
  rw [matches_iff]
  constructor
  · rintro ⟨-, before', after', hsplit, hhead⟩
    obtain ⟨hbefore, hafter⟩ : c ∉ before ∧ c ∉ after := by
      grind [List.nodup_append]
    obtain ⟨rfl, -, -⟩ :=
      (List.append_cons_inj_of_notMem hbefore hafter).mp hsplit
    exact hhead
  · intro hhead
    exact ⟨hc, before, after, rfl, hhead⟩

/-- What comes after a closer has no say in what it matches. -/
theorem Matches.of_append (hnodup : (ls ++ after).Nodup) (hmem : c ∈ ls)
    (h : Matches (ls ++ after) o c) : Matches ls o c := by
  obtain ⟨before, rest, rfl⟩ := List.append_of_mem hmem
  rw [List.append_assoc, List.cons_append] at h hnodup
  have hhead := (matches_at_iff hnodup h.closer).mp h
  exact matches_iff.mpr ⟨h.closer, before, rest, rfl, hhead⟩

/-- The lines stand in the order of their places. -/
def InOrder (ls : List Line) : Prop :=
  ls.Pairwise fun l l' => l.place < l'.place

theorem InOrder.nodup (h : InOrder ls) : ls.Nodup := by
  refine List.Pairwise.imp ?_ h
  rintro l _ hlt rfl
  exact Nat.lt_irrefl _ hlt

/-- A line that closes nothing stands inside the openers on the stack before
    it. -/
theorem encloses_iff (horder : InOrder (before ++ l :: after))
    (hl : ¬ l.IsCloser) :
    Encloses (before ++ l :: after) o l ↔ o ∈ opened before := by
  have hnodup := horder.nodup
  obtain ⟨hbefore, hafter, hacross⟩ := List.pairwise_append.mp horder
  obtain ⟨hlater, -⟩ := List.pairwise_cons.mp hafter
  have hearlier : ∀ l' ∈ before, l'.place < l.place :=
    fun l' hl' => hacross l' hl' l List.mem_cons_self
  -- the lines before `l` are those with a smaller place
  have hplace : ∀ l' ∈ before ++ l :: after, l' ≠ l →
      ¬ l.place < l'.place → l' ∈ before := by
    intro l' hl' hne hlt
    rcases List.mem_append.mp hl' with hl' | hl'
    · exact hl'
    · rcases List.mem_cons.mp hl' with heq | hl'
      · exact absurd heq hne
      · exact absurd (hlater l' hl') hlt
  rw [mem_opened_iff (InOrder.nodup hbefore)]
  constructor
  · rintro ⟨hmem, ho, hlt, hopen⟩
    refine ⟨hplace o hmem ?_ (by omega), ho, fun c hmatch => ?_⟩
    · rintro rfl
      omega
    · have hlt' := hopen c (hmatch.append _)
      have := hearlier c hmatch.mem.2
      omega
  · rintro ⟨hmem, ho, hopen⟩
    refine ⟨by simp [hmem], ho, hearlier o hmem, fun c hmatch => ?_⟩
    by_contra hlt
    -- a closer before `l` would close `o` among the lines before `l`
    have hne : c ≠ l := by
      rintro rfl
      exact hl hmatch.closer
    have hc := hplace c hmatch.mem.2 hne hlt
    exact hopen c (hmatch.of_append hnodup hc)

/-- The opener on top of the stack is the last one on it. -/
theorem head?_opened_iff (horder : InOrder ls) :
    (opened ls).head? = some o ↔
      o ∈ opened ls ∧ ∀ o' ∈ opened ls, o'.place ≤ o.place := by
  have hstack : (opened ls).Pairwise fun l l' => l'.place < l.place :=
    (List.pairwise_reverse.mpr horder).sublist (opened_sublist ls)
  cases hopened : opened ls with
  | nil => simp
  | cons top stack =>
    rw [hopened, List.pairwise_cons] at hstack
    rw [List.head?_cons, Option.some.injEq]
    constructor
    · rintro rfl
      refine ⟨List.mem_cons_self, fun o' ho' => ?_⟩
      rcases List.mem_cons.mp ho' with rfl | ho'
      · exact Nat.le_refl _
      · exact Nat.le_of_lt (hstack.1 o' ho')
    · rintro ⟨hmem, hlast⟩
      rcases List.mem_cons.mp hmem with rfl | hmem
      · rfl
      · have hlt := hstack.1 o hmem
        have hle := hlast top List.mem_cons_self
        omega

/-- The innermost opener is on top of the stack. -/
theorem isInnermost_iff (horder : InOrder (before ++ l :: after))
    (hl : ¬ l.IsCloser) :
    IsInnermost (before ++ l :: after) o l ↔
      (opened before).head? = some o := by
  have hbefore : InOrder before := (List.pairwise_append.mp horder).1
  unfold IsInnermost
  simp only [encloses_iff horder hl, head?_opened_iff hbefore]

theorem inOrder_linesOf (script : String) : InOrder (linesOf script) := by
  refine List.Pairwise.filterMap _ ?_
    (Text.pairwise_placedLines script.toList)
  intro l l' hlt line hline line' hline'
  obtain ⟨content, -, rfl⟩ := Option.map_eq_some_iff.mp hline
  obtain ⟨content', -, rfl⟩ := Option.map_eq_some_iff.mp hline'
  exact hlt

end SayScript.Layout
