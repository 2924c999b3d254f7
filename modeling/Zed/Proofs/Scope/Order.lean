import Zed.Proofs.Grammar.Leaves
import Zed.Proofs.Scope.Sites
import Zed.Proofs.Token.Coverage

/-!
# Reports follow the source

The undefined reads of a program that was read from a source come in the order of the source, and
each of them stands at a token that is a variable of that name (`Program.undefinedReads_in_order`).
Three orders are put together for this, all of them as sublists: reported reads are among the leaves
of the program, its leaves are among those of the tokens, and the positions of tokens increase.
-/

set_option autoImplicit false

namespace Zed

/-! ## Reads among leaves -/

/-- The variables of terms in a row are those of the first ones and those of the others. -/
theorem Term.variables_append (ts us : List Term) :
    Term.variables (ts ++ us) = Term.variables ts ++ Term.variables us :=
  List.filterMap_append

/-- The sites made of variables at one place are about these variables. -/
theorem Place.occurrences_sites (place : Place) (vs : List Variable) :
    (place.sites vs).map Site.occurrence = vs := by
  rw [Place.sites, List.map_map]
  exact List.map_id vs

/-- Where there is no operator to apply to it, the target is a leaf but not a read. -/
theorem Statement.assignReads_sublist (target : Variable) (value : Value)
    (operator : Option Arithmetic) :
    (Statement.assignReads target value operator).Sublist
      (target :: Term.variables value.leaves) := by
  cases operator with
  | none => exact List.sublist_cons_self _ _
  | some operator => exact List.Sublist.refl _

mutual

/-- The reads of a statement are some of its variables, in the order in which they are written. -/
theorem Statement.occurrences_sublist : ∀ (s : Statement) (place : Place),
    ((s.sites place).map Site.occurrence).Sublist (Term.variables s.leaves)
  | .assign target value operator, place => by
    rw [Statement.sites_assign, Place.occurrences_sites]
    exact Statement.assignReads_sublist target value operator
  | .output terms, place => by
    rw [Statement.sites_output, Place.occurrences_sites]
    exact List.Sublist.refl _
  | .whileLoop test body, place => by
    rw [Statement.sites_whileLoop, List.map_append, Place.occurrences_sites,
      Statement.leaves_whileLoop, Term.variables_append]
    exact (List.Sublist.refl _).append (Block.occurrences_sublist body _)
  | .untilLoop body test, place => by
    rw [Statement.sites_untilLoop, List.map_append, Place.occurrences_sites,
      Statement.leaves_untilLoop, Term.variables_append]
    exact (Block.occurrences_sublist body _).append (List.Sublist.refl _)
  | .forLoop counter start stop step body, place => by
    -- The counter is a leaf too, but it is not read.
    rw [Statement.sites_forLoop, Statement.leaves_forLoop, Term.variables_append]
    exact (Block.occurrences_sublist body _).trans (List.sublist_append_right _ _)
  | .choice branches, place => by
    rw [Statement.sites_choice, Statement.leaves_choice]
    exact Statement.occurrencesOfBranches_sublist branches place _
  | .switch subject arms, place => by
    rw [Statement.sites_switch, List.map_append, Place.occurrences_sites, Statement.leaves_switch]
    exact (Statement.occurrencesOfArms_sublist arms _).cons_cons subject

/-- The reads of statements are some of their variables, in order. -/
theorem Statement.occurrencesOfAll_sublist : ∀ (ss : List Statement) (place : Place),
    ((Statement.sitesOfAll place ss).map Site.occurrence).Sublist
      (Term.variables (Statement.leavesOfAll ss))
  | [], _ => List.Sublist.refl _
  | s :: ss, place => by
    rw [Statement.sitesOfAll_cons, List.map_append, Statement.leavesOfAll_cons,
      Term.variables_append]
    exact (Statement.occurrences_sublist s place).append (Statement.occurrencesOfAll_sublist ss _)

/-- The reads of a block are some of its variables, in order. -/
theorem Block.occurrences_sublist : ∀ (b : Block) (place : Place),
    ((b.sites place).map Site.occurrence).Sublist (Term.variables b.leaves)
  | .mk ss _, place => Statement.occurrencesOfAll_sublist ss place

/-- The reads of branches are some of their variables, in order. -/
theorem Statement.occurrencesOfBranches_sublist : ∀ (branches : List (Option Condition × Block))
    (place inner : Place),
    ((Statement.sitesOfBranches place inner branches).map Site.occurrence).Sublist
      (Term.variables (Statement.leavesOfBranches branches))
  | [], _, _ => List.Sublist.refl _
  | (some test, body) :: others, place, inner => by
    rw [Statement.sitesOfBranches_some, List.map_append, List.map_append, Place.occurrences_sites,
      Statement.leavesOfBranches_some, Term.variables_append, Term.variables_append]
    exact ((List.Sublist.refl _).append (Block.occurrences_sublist body inner)).append
      (Statement.occurrencesOfBranches_sublist others place inner)
  | (none, body) :: others, place, inner => by
    rw [Statement.sitesOfBranches_none, List.map_append, Statement.leavesOfBranches_none,
      Term.variables_append]
    exact (Block.occurrences_sublist body inner).append
      (Statement.occurrencesOfBranches_sublist others place inner)

/-- The reads of arms are some of their variables, in order. -/
theorem Statement.occurrencesOfArms_sublist : ∀ (arms : List (Literal × Block)) (inner : Place),
    ((Statement.sitesOfArms inner arms).map Site.occurrence).Sublist
      (Term.variables (Statement.leavesOfArms arms))
  | [], _ => List.Sublist.refl _
  | (label, body) :: others, inner => by
    rw [Statement.sitesOfArms_cons, List.map_append, Statement.leavesOfArms_cons, List.cons_append,
      ← List.singleton_append, Term.variables_append, Term.variables_append]
    exact ((Block.occurrences_sublist body inner).append
      (Statement.occurrencesOfArms_sublist others inner)).trans (List.sublist_append_right _ _)

end

/-- What is reported are variables of the program, in order. -/
theorem Program.exists_undefinedReads_eq (p : Program) :
    ∃ vs : List Variable, p.undefinedReads = vs.map Variable.report ∧
      vs.Sublist (Term.variables p.leaves) := by
  refine ⟨(p.sites.filter fun site => !Statement.known site.place.visible site.occurrence.name).map
    Site.occurrence, ?_, ?_⟩
  · rw [Program.undefinedReads_eq, Site.unresolved, List.map_map]
    rfl
  · exact (List.filter_sublist.map _).trans (Block.occurrences_sublist p.body .start)

/-! ## Variables among tokens -/

namespace Token

/-- The occurrence of a variable that a token is, if it is one. -/
def occurrence? (t : Token) : Option Variable :=
  match t.kind with
  | .var name => some ⟨name, t.position⟩
  | _ => none

/-- A token is an occurrence of a variable by its kind and its position. -/
theorem occurrence?_eq_some {t : Token} {v : Variable} (h : t.occurrence? = some v) :
    t.kind = .var v.name ∧ t.position = v.position := by
  unfold occurrence? at h
  split at h
  · next hkind =>
    cases h
    exact ⟨hkind, rfl⟩
  · cases h

/-- The variables among the leaves of tokens. -/
theorem filterMap_leaves (ts : List Token) :
    (leaves ts).filterMap (fun leaf => leaf.bind Term.occurrence?) = ts.filterMap occurrence? := by
  rw [leaves, List.filterMap_map, List.filterMap_filter]
  apply List.filterMap_congr
  intro t _
  obtain ⟨kind, lexeme, position⟩ := t
  cases kind with
  | number spelling =>
    simp only [isLeaf, leaf?, occurrence?, Function.comp]
    cases Binary64.ofSpelling? spelling <;> rfl
  | _ => rfl

end Token

/-- The variables of a program that was read are among those of the tokens. -/
theorem Reading.variables_sublist {ts : List Token} {p : Program}
    (h : (ofTokens ts).program = some p) :
    (Term.variables p.leaves).Sublist (ts.filterMap Token.occurrence?) := by
  have hvariables := (draws h).sublist.filterMap fun leaf => leaf.bind Term.occurrence?
  rwa [Token.filterMap_leaves, List.filterMap_map] at hvariables

/-- No position comes before itself. -/
theorem Position.Precedes.irrefl (p : Position) : ¬ p.Precedes p := by
  rintro (h | ⟨-, h⟩)
  · exact Nat.lt_irrefl _ h
  · exact Nat.lt_irrefl _ h

/-- The undefined reads of a program that was read from a source come in the order of their
positions, so that none is reported twice. Each has the name and the position of a variable
among the tokens. -/
theorem Program.undefinedReads_in_order {source : String} {p : Program}
    (h : (Reading.ofTokens (Token.ofSource source)).program = some p) :
    (p.undefinedReads.Pairwise fun d e =>
      ∃ a b, d.position = some a ∧ e.position = some b ∧ a.Precedes b) ∧
    p.undefinedReads.Nodup ∧
    ∀ d ∈ p.undefinedReads, ∃ t ∈ Token.ofSource source, ∃ name,
      t.kind = .var name ∧ d = .undefinedRead name t.position := by
  obtain ⟨vs, hreads, hsublist⟩ := p.exists_undefinedReads_eq
  have htokens := hsublist.trans (Reading.variables_sublist h)
  have hordered : p.undefinedReads.Pairwise fun d e =>
      ∃ a b, d.position = some a ∧ e.position = some b ∧ a.Precedes b := by
    have hall : ((Token.ofSource source).filterMap Token.occurrence?).Pairwise
        fun v w => v.position.Precedes w.position := by
      refine (Token.ofSource_ordered source).filterMap _ fun t u htu v hv w hw => ?_
      rw [(Token.occurrence?_eq_some hv).2, (Token.occurrence?_eq_some hw).2] at htu
      exact htu.1
    rw [hreads]
    exact (hall.sublist htokens).map _ fun v w hvw => ⟨v.position, w.position, rfl, rfl, hvw⟩
  refine ⟨hordered, hordered.imp ?_, fun d hd => ?_⟩
  · -- Two equal reports have one position, which does not precede itself.
    rintro d e ⟨a, b, ha, hb, hab⟩ rfl
    rw [ha] at hb
    cases hb
    exact Position.Precedes.irrefl a hab
  · rw [hreads] at hd
    obtain ⟨v, hv, rfl⟩ := List.mem_map.1 hd
    obtain ⟨t, ht, htv⟩ := List.mem_filterMap.1 (htokens.subset hv)
    obtain ⟨hkind, hposition⟩ := Token.occurrence?_eq_some htv
    exact ⟨t, ht, v.name, hkind, by rw [hposition]; rfl⟩

/-- Undefined reads in every kind of statement that reads, on lines between which a
statement is lost. -/
def scatteredReadsSource : String :=
  String.join ["PROG scattered\n", "REPEAT DO = A B +: ", "OUT[C \"lost\"]: ", "ENDDO\n",
    "UNTIL && == A C ", "> D 1 ENDREPEAT\n", "SWITCH E WHEN 1 DO ", "= F IN[G + F]: ",
    "ENDDO ENDSWITCH ", "ENDPROG"]

theorem scatteredReadsSource_in_order :
    ∃ p, (Reading.ofTokens (Token.ofSource scatteredReadsSource)).program = some p ∧
      (Reading.ofTokens (Token.ofSource scatteredReadsSource)).diagnostics.length = 1 ∧
      p.undefinedReads = [.undefinedRead "A" ⟨2, 12⟩, .undefinedRead "B" ⟨2, 14⟩,
        .undefinedRead "A" ⟨3, 12⟩, .undefinedRead "C" ⟨3, 14⟩, .undefinedRead "D" ⟨3, 18⟩,
        .undefinedRead "E" ⟨4, 7⟩, .undefinedRead "G" ⟨4, 26⟩, .undefinedRead "F" ⟨4, 30⟩] ∧
      (p.undefinedReads.Pairwise fun d e =>
        ∃ a b, d.position = some a ∧ e.position = some b ∧ a.Precedes b) ∧
      p.undefinedReads.Nodup ∧
      ∀ d ∈ p.undefinedReads, ∃ t ∈ Token.ofSource scatteredReadsSource, ∃ name,
        t.kind = .var name ∧ d = .undefinedRead name t.position := by
  have hread : (Reading.ofTokens (Token.ofSource scatteredReadsSource)).diagnostics.length = 1 ∧
      (Reading.ofTokens (Token.ofSource scatteredReadsSource)).program.map Program.undefinedReads
        = some [.undefinedRead "A" ⟨2, 12⟩, .undefinedRead "B" ⟨2, 14⟩, .undefinedRead "A" ⟨3, 12⟩,
          .undefinedRead "C" ⟨3, 14⟩, .undefinedRead "D" ⟨3, 18⟩, .undefinedRead "E" ⟨4, 7⟩,
          .undefinedRead "G" ⟨4, 26⟩, .undefinedRead "F" ⟨4, 30⟩] := by
    rw [scatteredReadsSource, Token.ofSource_join]
    decide +kernel
  obtain ⟨p, hp, hreads⟩ := Option.map_eq_some_iff.1 hread.2
  exact ⟨p, hp, hread.1, hreads, Program.undefinedReads_in_order hp⟩

end Zed
