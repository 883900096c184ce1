import SayScript.Proofs.Faults
import SayScript.Proofs.Relabelling

/-! # Renamed tokens

    The names, quoted texts and line numbers in a list of tokens can be
    replaced by others, and reading takes no notice: it takes as many tokens,
    and the program or the fault is the old one under the new labels.  This
    makes it safe to rename what a program is about.

    A fault keeps only the description of a token.  Which token that is
    follows from how far the run got, and the run under other labels gets
    just as far, so the new description is that of the same token. -/

namespace SayScript

namespace Reader

variable {ρ : Relabelling} {limit : Nat} {ts : List Token} {o o' : Outcome}
  {slot : Slot} {found : String} {line : Nat}

/-- The tokens that were taken under other labels are those that were taken,
    the extra one at the end included. -/
theorem Outcome.Relabels.taken (h : o.Relabels ρ o') (hts : ts ≠ []) :
    o'.taken (ts.map (Token.relabel ρ)) =
      (o.taken ts).map (Token.relabel ρ) := by
  have hline : Token.lastLine (ts.map (Token.relabel ρ)) =
      ρ.line (Token.lastLine ts) :=
    Token.lastLine_map (fun _ => rfl) hts
  rw [Outcome.taken, Outcome.taken, h.advances, hline, List.map_take,
    List.map_append]
  rfl

/-! ## Which token a fault is about -/

theorem FailsWith.getLast?_taken
    (h : FailsWith limit ts o (.expected slot found line)) :
    ∃ t, (o.taken ts).getLast? = some t ∧ t.describe = found ∧
      t.line = line := by
  cases h with
  | expected _ _ _ _ hlast => exact ⟨_, hlast, rfl, rfl⟩

theorem FailsWith.head?_rest
    (h : FailsWith limit ts o (.unexpected found line)) :
    ∃ t, o.rest.head? = some t ∧ t.describe = found ∧ t.line = line := by
  cases h with
  | unexpected _ hhead _ => exact ⟨_, hhead, rfl, rfl⟩

end Reader

/-! ## The same fault under other labels -/

namespace Program

open Reader

variable {limit : Nat} {ts : List Token} {slot : Slot} {found : String}
  {line : Nat} {e : ReadFault}

theorem ne_nil_of_read_error (h : (read limit ts).result = .error e) :
    ts ≠ [] := by
  rintro rfl
  cases h

/-- A token that does not fit its place does not fit it under other labels,
    and it is the same one. -/
theorem read_relabel_expected (ρ : Relabelling)
    (h : (read limit ts).result = .error (.expected slot found line)) :
    ∃ t, ((read limit ts).taken ts).getLast? = some t ∧
      t.describe = found ∧ t.line = line ∧
      (read limit (ts.map (Token.relabel ρ))).result =
        .error (.expected slot (t.relabel ρ).describe (ρ.line line)) := by
  have hrelabels := read_relabels ρ limit ts
  obtain ⟨t, hlast, hfound, hline⟩ := (failsWith_of_read h).getLast?_taken
  obtain ⟨e', hread, hfault⟩ := hrelabels.result.of_error h
  refine ⟨t, hlast, hfound, hline, ?_⟩
  generalize he : ReadFault.expected slot found line = e at hfault
  cases hfault with
  | expected slot' u =>
    cases he
    -- the other run took the same last token, and describes it
    obtain ⟨t', hlast', hfound', -⟩ := (failsWith_of_read hread).getLast?_taken
    rw [hrelabels.taken (ne_nil_of_read_error h), List.getLast?_map, hlast]
      at hlast'
    cases hlast'
    rw [hread, hfound']
  | _ => cases he

/-- A token that is unexpected in a `say` is so under other labels. -/
theorem read_relabel_unexpected (ρ : Relabelling)
    (h : (read limit ts).result = .error (.unexpected found line)) :
    ∃ t, (read limit ts).rest.head? = some t ∧
      t.describe = found ∧ t.line = line ∧
      (read limit (ts.map (Token.relabel ρ))).result =
        .error (.unexpected (t.relabel ρ).describe (ρ.line line)) := by
  have hrelabels := read_relabels ρ limit ts
  obtain ⟨t, hhead, hfound, hline⟩ := (failsWith_of_read h).head?_rest
  obtain ⟨e', hread, hfault⟩ := hrelabels.result.of_error h
  refine ⟨t, hhead, hfound, hline, ?_⟩
  generalize he : ReadFault.unexpected found line = e at hfault
  cases hfault with
  | unexpected u =>
    cases he
    -- the other run left the same token, and describes it
    obtain ⟨t', hhead', hfound', -⟩ := (failsWith_of_read hread).head?_rest
    rw [hrelabels.rest, List.head?_map, hhead] at hhead'
    cases hhead'
    rw [hread, hfound']
  | _ => cases he

/-- **Reading is blind to labels.**  Let the names, the quoted texts and the
    line numbers of tokens be replaced by others, where the default
    terminator stays what it is.  Then as many tokens are taken.  A program
    has its names, literals and terminators replaced.  A fault is of the same
    kind with its line numbers replaced, and describes the token that it is
    about as it is now: the last one taken, or the first one left in a
    `say`. -/
theorem read_relabelled (ρ : Relabelling) (limit : Nat) (ts : List Token) :
    (read limit (ts.map (Token.relabel ρ))).advances =
      (read limit ts).advances ∧
    (∀ p, (read limit ts).result = .ok p →
      (read limit (ts.map (Token.relabel ρ))).result = .ok (p.relabel ρ)) ∧
    (∀ slot found line,
      (read limit ts).result = .error (.expected slot found line) →
      ∃ t, ((read limit ts).taken ts).getLast? = some t ∧
        t.describe = found ∧ t.line = line ∧
        (read limit (ts.map (Token.relabel ρ))).result =
          .error (.expected slot (t.relabel ρ).describe (ρ.line line))) ∧
    (∀ found line,
      (read limit ts).result = .error (.unexpected found line) →
      ∃ t, (read limit ts).rest.head? = some t ∧
        t.describe = found ∧ t.line = line ∧
        (read limit (ts.map (Token.relabel ρ))).result =
          .error (.unexpected (t.relabel ρ).describe (ρ.line line))) ∧
    (∀ openedAt line,
      (read limit ts).result = .error (.unclosedBlock openedAt line) →
      (read limit (ts.map (Token.relabel ρ))).result =
        .error (.unclosedBlock (ρ.line openedAt) (ρ.line line))) ∧
    (∀ m line, (read limit ts).result = .error (.blockLimit m line) →
      (read limit (ts.map (Token.relabel ρ))).result =
        .error (.blockLimit m (ρ.line line))) := by
  have hrelabels := read_relabels ρ limit ts
  refine ⟨hrelabels.advances, ?_, ?_, ?_, ?_, ?_⟩
  · intro p hp
    exact hrelabels.result.of_ok hp
  · intro slot found line h
    exact read_relabel_expected ρ h
  · intro found line h
    exact read_relabel_unexpected ρ h
  · intro openedAt line h
    obtain ⟨e', hread, hfault⟩ := hrelabels.result.of_error h
    cases hfault with
    | unclosedBlock _ _ => exact hread
  · intro m line h
    obtain ⟨e', hread, hfault⟩ := hrelabels.result.of_error h
    cases hfault with
    | blockLimit _ _ => exact hread

end Program

end SayScript
