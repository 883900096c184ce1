import SayScript.FileTree.Basic

/-! # What an operation on files changes

    There is one way to a place: no file is found under two names, so where a
    path leads is read off its parts, `Path.target`.  Whether it leads there
    depends on the directories that there are.

    Writing a file changes what is at the target and nothing else, and what
    was written is read back.  Making directories changes nothing that is
    there: it only puts directories at places where there was nothing,
    `FileTree.Grows`, and those are on the way of the path that was asked
    for, `Path.LeadsThrough`. -/

namespace SayScript

/-! ## Where a path leads -/

namespace Path

/-- The place that the parts of a path lead to from another place. -/
def follow (place : Place) : List String → Place
  | [] => place
  | part :: rest =>
    if part = "." then follow place rest
    else if part = ".." then follow place.tail rest
    else follow (part :: place) rest

/-- The place that a path leads to. -/
def target (home : Place) (p : Path) : Place :=
  follow (if p.isAbsolute then [] else home) p.parts

/-- The place is where the path leads, or one on its way. -/
def LeadsThrough (home : Place) (p : Path) (place : Place) : Prop :=
  ∃ parts, parts <+: p.parts ∧
    place = follow (if p.isAbsolute then [] else home) parts

/-- Is the text the name of a file, rather than a path or a way to go on? -/
def isName (name : String) : Bool :=
  '/' ∉ name.toList && name ∉ ["", ".", ".."]

theorem follow_append (place : Place) (parts rest : List String) :
    follow place (parts ++ rest) = follow (follow place parts) rest := by
  induction parts generalizing place with
  | nil => rfl
  | cons part parts ih =>
    simp only [List.cons_append, follow]
    split
    · exact ih place
    · split <;> exact ih _

/-- Without `..` the way only goes inwards, so the places on it are those
    around the target. -/
theorem LeadsThrough.suffix_target {home place : Place} {p : Path}
    (h : p.LeadsThrough home place) (hup : ".." ∉ p.parts) :
    place <:+ p.target home := by
  obtain ⟨parts, ⟨rest, hrest⟩, rfl⟩ := h
  rw [target, ← hrest, follow_append]
  generalize follow (if p.isAbsolute then [] else home) parts = place
  replace hup : ".." ∉ rest := fun hmem =>
    hup (hrest ▸ List.mem_append_right parts hmem)
  clear hrest
  -- from the place on, each part adds a name or stays where it is
  induction rest generalizing place with
  | nil => exact List.suffix_rfl
  | cons part rest ih =>
    have hpart : part ≠ ".." := fun heq => hup (heq ▸ List.mem_cons_self)
    have hrest : ".." ∉ rest := fun hmem => hup (List.mem_cons_of_mem part hmem)
    simp only [follow, if_neg hpart]
    split
    · exact ih place hrest
    · exact (List.suffix_cons part place).trans (ih (part :: place) hrest)

theorem suffix_of_mem_beginnings {parts found : List String}
    (h : found ∈ beginnings parts) : found <:+ parts := by
  fun_induction beginnings parts with
  | case1 => cases h
  | case2 part outer _ ih => exact (ih h).trans (List.suffix_cons part outer)
  | case3 part outer _ ih =>
    rcases List.mem_cons.mp h with rfl | h
    · exact List.suffix_cons part found
    · exact (ih h).trans (List.suffix_cons part outer)

/-- The directories around a path are on its way. -/
theorem leadsThrough_of_mem_ancestors {p outer : Path} (home : Place)
    (h : outer ∈ p.ancestors) : p.LeadsThrough home (outer.target home) := by
  rcases List.mem_cons.mp h with rfl | h
  · exact ⟨outer.parts, List.prefix_rfl, rfl⟩
  · obtain ⟨parts, hparts, rfl⟩ := List.mem_map.mp h
    refine ⟨parts.reverse, ?_, rfl⟩
    have hsuffix := (suffix_of_mem_beginnings hparts).trans
      (List.dropWhile_suffix (· = "."))
    rwa [← List.reverse_prefix, List.reverse_reverse] at hsuffix

/-- The names in a directory lead to places next to each other. -/
theorem exists_target_join (home : Place) (directory : String) :
    ∃ outer, ∀ name, isName name →
      (ofString (directory ++ "/" ++ name)).target home = name :: outer := by
  let start := if (ofString (directory ++ "/")).isAbsolute then [] else home
  refine ⟨follow start (ofString directory).parts, ?_⟩
  intro name hname
  simp only [isName, Bool.and_eq_true, decide_eq_true_eq, List.mem_cons,
    List.not_mem_nil, or_false, not_or] at hname
  obtain ⟨hslash, hempty, hdot, hdots⟩ := hname
  have habsolute : (ofString (directory ++ "/" ++ name)).isAbsolute =
      (ofString (directory ++ "/")).isAbsolute := by
    cases hcs : directory.toList <;> simp [ofString, hcs]
  have hparts : (ofString (directory ++ "/" ++ name)).parts =
      (ofString directory).parts ++ [name] := by
    have hcs : (directory ++ "/" ++ name).toList =
        directory.toList ++ '/' :: name.toList := by simp
    have hne : name.toList ≠ [] := by simpa using hempty
    simp only [ofString, hcs, List.splitOn_append_cons_self,
      List.splitOn_eq_singleton hslash, List.filter_append, List.map_append]
    simp [hne]
  rw [target, habsolute, hparts, follow_append]
  simp only [follow, if_neg hdot, if_neg hdots]
  rfl

end Path

namespace FileTree

variable {t t' t'' : FileTree} {p : Path} {place other found : Place}
  {node : Node} {parts : List String} {text : String} {fault : StorageFault}

theorem walk_eq_ok (h : t.walk place parts = .ok found) :
    found = Path.follow place parts := by
  induction parts generalizing place with
  | nil =>
    cases h
    rfl
  | cons part rest ih =>
    simp only [walk] at h
    simp only [Path.follow]
    split at h
    · cases h
    · cases h
    · by_cases hdot : part = "."
      · rw [if_pos hdot] at h ⊢
        exact ih h
      · rw [if_neg hdot] at h ⊢
        by_cases hdots : part = ".."
        · rw [if_pos hdots] at h ⊢
          exact ih h
        · rw [if_neg hdots] at h ⊢
          exact ih h

/-- The place that a path with the given text leads to. -/
def placeOf (t : FileTree) (path : String) : Place :=
  (Path.ofString path).target t.home

/-- A path leads to its target or nowhere. -/
theorem resolve_eq_ok (h : t.resolve p = .ok place) :
    place = p.target t.home :=
  walk_eq_ok h

/-! ## Putting a node at a place -/

theorem get?_root : t.get? [] = some .directory := rfl

theorem get?_put_self (hplace : place ≠ []) :
    (t.put place node).get? place = some node := by
  rw [get?, if_neg hplace]
  simp [put]

theorem get?_put_of_ne (h : other ≠ place) :
    (t.put place node).get? other = t.get? other := by
  have hlookup : ∀ nodes : List (Place × Node),
      (nodes.filter (·.1 ≠ place)).lookup other = nodes.lookup other := by
    intro nodes
    induction nodes with
    | nil => rfl
    | cons entry nodes ih =>
      obtain ⟨here, node⟩ := entry
      by_cases hhere : here = place
      · have hother : (other == here) = false := by simp [hhere, h]
        rw [List.filter_cons_of_neg (by simpa using hhere), ih,
          List.lookup_cons, hother]
      · rw [List.filter_cons_of_pos (by simpa using hhere),
          List.lookup_cons, List.lookup_cons, ih]
  have hother : (other == place) = false := by simp [h]
  simp only [get?, put, List.lookup_cons, hother, hlookup]

/-- A walk goes through directories only, so it does not see what is put
    elsewhere. -/
theorem walk_put (hplace : t.get? place ≠ some .directory)
    (h : t.walk other parts = .ok found) :
    (t.put place node).walk other parts = .ok found := by
  induction parts generalizing other with
  | nil => exact h
  | cons part rest ih =>
    simp only [walk] at h ⊢
    split at h
    · cases h
    · cases h
    · rename_i hdirectory
      have hne : other ≠ place := by
        rintro rfl
        exact hplace hdirectory
      rw [get?_put_of_ne hne, hdirectory]
      by_cases hdot : part = "."
      · simp only [if_pos hdot] at h ⊢
        exact ih h
      · by_cases hdots : part = ".."
        · simp only [if_neg hdot, if_pos hdots] at h ⊢
          exact ih h
        · simp only [if_neg hdot, if_neg hdots] at h ⊢
          exact ih h

/-! ## Writing a file -/

/-- Writing puts a file at the target of the path, where there was no
    directory. -/
theorem writeText_eq_ok (h : t.writeText p text = .ok t') :
    t.resolve p = .ok (p.target t.home) ∧ p.hasSlash = false ∧
      t.get? (p.target t.home) ≠ some .directory ∧
      t' = t.put (p.target t.home) (.file (.text text)) := by
  unfold writeText at h
  cases hplace : t.resolve p with
  | error fault =>
    rw [hplace] at h
    cases h
  | ok place =>
    rw [hplace] at h
    rw [← resolve_eq_ok hplace]
    simp only [bind, Except.bind] at h
    split at h
    · cases h
    · rename_i hfree
      simp only [Bool.or_eq_true, decide_eq_true_eq, not_or,
        Bool.not_eq_true] at hfree
      cases h
      exact ⟨rfl, hfree.1, hfree.2, rfl⟩

/-- What was written is read back. -/
theorem readText_of_writeText (h : t.writeText p text = .ok t') :
    t'.readText p = .ok text := by
  obtain ⟨hresolve, hslash, hfree, rfl⟩ := writeText_eq_ok h
  have hroot : p.target t.home ≠ [] := by
    intro hroot
    rw [hroot] at hfree
    exact hfree get?_root
  have hresolve' : (t.put (p.target t.home) (.file (.text text))).resolve p =
      .ok (p.target t.home) :=
    walk_put hfree hresolve
  simp [readText, hresolve', bind, Except.bind, get?_put_self hroot, hslash,
    pure, Except.pure]

/-! ## Making directories -/

/-- Everything is as before, but that there may be directories at some places
    where there was nothing. -/
structure Grows (places : Place → Prop) (t t' : FileTree) : Prop where
  home : t'.home = t.home
  get? : ∀ place, t'.get? place = t.get? place ∨
    places place ∧ t.get? place = none ∧ t'.get? place = some .directory

section Grows

variable {places places' : Place → Prop}

theorem Grows.refl (t : FileTree) : Grows places t t :=
  ⟨rfl, fun _ => .inl rfl⟩

theorem Grows.mono (h : Grows places t t')
    (hplaces : ∀ place, places place → places' place) :
    Grows places' t t' := by
  refine ⟨h.home, fun place => ?_⟩
  rcases h.get? place with hsame | ⟨hplace, hnew⟩
  · exact .inl hsame
  · exact .inr ⟨hplaces place hplace, hnew⟩

theorem Grows.trans (h : Grows places t t') (h' : Grows places t' t'') :
    Grows places t t'' := by
  refine ⟨h'.home.trans h.home, ?_⟩
  intro place
  rcases h.get? place with hsame | ⟨hplace, hnone, hnew⟩
  · rcases h'.get? place with hsame' | ⟨hplace', hnone', hnew'⟩
    · exact .inl (hsame'.trans hsame)
    · exact .inr ⟨hplace', hsame ▸ hnone', hnew'⟩
  · rcases h'.get? place with hsame' | ⟨-, hnone', -⟩
    · exact .inr ⟨hplace, hnone, hsame'.trans hnew⟩
    · rw [hnew] at hnone'
      cases hnone'

end Grows

theorem grows_of_makeDir (h : t.makeDir p = .ok t') :
    Grows (· = p.target t.home) t t' := by
  unfold makeDir at h
  cases hplace : t.resolve p with
  | error fault =>
    rw [hplace] at h
    cases h
  | ok place =>
    rw [hplace] at h
    simp only [bind, Except.bind] at h
    split at h
    · cases h
    · rename_i hnone
      cases h
      refine ⟨rfl, ?_⟩
      intro other
      by_cases hother : other = place
      · have hroot : place ≠ [] := by
          rintro rfl
          cases hnone
        rw [hother]
        exact .inr ⟨resolve_eq_ok hplace, hnone, get?_put_self hroot⟩
      · exact .inl (get?_put_of_ne hother)

/-- Directories are made at the targets of the paths.  Those that were made
    before a fault stay, so this holds with or without one. -/
theorem grows_makeNested (t : FileTree) (ps : List Path) :
    Grows (fun place => ∃ p ∈ ps, place = p.target t.home) t
      (t.makeNested ps).1 := by
  induction ps generalizing t with
  | nil => exact .refl t
  | cons p outer ih =>
    have hfirst : ∀ place, place = p.target t.home →
        ∃ p' ∈ p :: outer, place = p'.target t.home :=
      fun place hplace => ⟨p, List.mem_cons_self, hplace⟩
    have hrest : Grows (fun place => ∃ p' ∈ p :: outer,
        place = p'.target t.home) t (t.makeNested outer).1 :=
      (ih t).mono fun place ⟨p', hmem, hplace⟩ =>
        ⟨p', List.mem_cons_of_mem p hmem, hplace⟩
    have hsettle : ∀ (t : FileTree) (fault : StorageFault),
        (if t.hasDirectory p then (t, .ok ()) else (t, .error fault) :
          FileTree × Except StorageFault Unit).1 = t := by
      intro t fault
      split <;> rfl
    unfold makeNested
    split
    · rename_i made hmade
      exact (grows_of_makeDir hmade).mono hfirst
    · split
      · rename_i t' fault houter
        rwa [houter] at hrest
      · rename_i t' houter
        rw [houter] at hrest
        split
        · rename_i made hmade
          -- the path is tried again on a larger tree, with the same home
          have hmade := grows_of_makeDir hmade
          rw [hrest.home] at hmade
          exact hrest.trans (hmade.mono hfirst)
        · rw [hsettle]
          exact hrest
    · rw [hsettle]
      exact .refl t

theorem grows_makeDirs (t : FileTree) (p : Path) :
    Grows (p.LeadsThrough t.home) t (t.makeDirs p).1 := by
  refine (grows_makeNested t p.ancestors).mono ?_
  rintro place ⟨outer, hmem, rfl⟩
  exact Path.leadsThrough_of_mem_ancestors t.home hmem

/-! ## Files -/

/-- The content of the file at a place, if there is one. -/
def file? (t : FileTree) (place : Place) : Option Content :=
  match t.get? place with
  | some (.file content) => some content
  | _ => none

theorem file?_of_get?_eq (h : t'.get? place = t.get? place) :
    t'.file? place = t.file? place := by
  rw [file?, h, file?]

/-- A directory is no file. -/
theorem file?_of_new (hnone : t.get? place = none)
    (hnew : t'.get? place = some .directory) :
    t'.file? place = t.file? place := by
  rw [file?, hnew, file?, hnone]

theorem file?_of_writeText (h : t.writeText p text = .ok t') :
    t'.file? (p.target t.home) = some (.text text) := by
  obtain ⟨-, -, hfree, rfl⟩ := writeText_eq_ok h
  have hroot : p.target t.home ≠ [] := by
    intro hroot
    rw [hroot] at hfree
    exact hfree get?_root
  rw [file?, get?_put_self hroot]

end FileTree

end SayScript
