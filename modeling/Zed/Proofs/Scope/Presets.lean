import Mathlib.Data.List.Basic
import Zed.Proofs.Scope.Report
import Zed.Proofs.Scope.Sites

/-!
# Definitions in front of a program

Assignments in front of a program that set variables to zero make no read undefined that was defined
before, and make every read of these variables defined. So they only take reports away, and all of
them if they set every variable that is reported (`Program.undefinedReads_preset`).

In both programs there are the same reads. Each of them sees a few statements more in the second
one, ahead of those it sees in the first, and the more is known in front of statements, the more
is known behind them.
-/

set_option autoImplicit false

namespace Zed

/-! ## Places further down -/

/-- The same place when `first` are put in front of the program. -/
def Place.behind (first : List Statement) : Place → Place
  | ⟨[], before⟩ => ⟨[], first ++ before⟩
  | ⟨(before, s) :: around, own⟩ => ⟨(first ++ before, s) :: around, own⟩

def Site.behind (first : List Statement) (site : Site) : Site :=
  ⟨site.place.behind first, site.occurrence⟩

namespace Place

variable (first : List Statement)

/-- Statements in front of the whole program are visible everywhere. -/
theorem visible_behind (place : Place) : (place.behind first).visible = first ++ place.visible := by
  obtain ⟨_ | ⟨⟨before, s⟩, around⟩, own⟩ := place
  · rfl
  · simp only [behind, visible, List.flatMap_cons, List.append_assoc]

/-- The inside of a statement is behind the same statements as the statement. -/
theorem inside_behind (place : Place) (s : Statement) :
    (place.behind first).inside s = (place.inside s).behind first := by
  obtain ⟨_ | ⟨⟨before, t⟩, around⟩, own⟩ := place <;> rfl

/-- The place after some statements is behind the same statements as the place in front of them. -/
theorem past_behind (place : Place) (ss : List Statement) :
    (place.behind first).past ss = (place.past ss).behind first := by
  obtain ⟨_ | ⟨⟨before, t⟩, around⟩, own⟩ := place
  · simp only [behind, past, List.append_assoc]
  · rfl

/-- Statements in front of the whole program move the sites, and change nothing else. -/
theorem sites_behind (place : Place) (vs : List Variable) :
    (place.behind first).sites vs = (place.sites vs).map (Site.behind first) := by
  rw [sites, sites, List.map_map]
  rfl

end Place

section Behind

variable (first : List Statement)

mutual

/-- The sites of a statement move behind what comes in front of the program. -/
theorem Statement.sites_behind : ∀ (s : Statement) (place : Place),
    s.sites (place.behind first) = (s.sites place).map (Site.behind first)
  | .assign target value operator, place => by
    rw [Statement.sites_assign, Statement.sites_assign, Place.sites_behind]
  | .output terms, place => by
    rw [Statement.sites_output, Statement.sites_output, Place.sites_behind]
  | .whileLoop test body, place => by
    rw [Statement.sites_whileLoop, Statement.sites_whileLoop, List.map_append, Place.sites_behind,
      Place.inside_behind, Block.sites_behind body]
  | .untilLoop body test, place => by
    rw [Statement.sites_untilLoop, Statement.sites_untilLoop, List.map_append, Place.inside_behind,
      Place.past_behind, Place.sites_behind, Block.sites_behind body]
  | .forLoop counter start stop step body, place => by
    rw [Statement.sites_forLoop, Statement.sites_forLoop, Place.inside_behind,
      Block.sites_behind body]
  | .choice branches, place => by
    rw [Statement.sites_choice, Statement.sites_choice, Place.inside_behind,
      Statement.sitesOfBranches_behind branches]
  | .switch subject arms, place => by
    rw [Statement.sites_switch, Statement.sites_switch, List.map_append, Place.sites_behind,
      Place.inside_behind, Statement.sitesOfArms_behind arms]

/-- The sites of statements move behind what comes in front of the program. -/
theorem Statement.sitesOfAll_behind : ∀ (ss : List Statement) (place : Place),
    Statement.sitesOfAll (place.behind first) ss
      = (Statement.sitesOfAll place ss).map (Site.behind first)
  | [], _ => rfl
  | s :: ss, place => by
    rw [Statement.sitesOfAll_cons, Statement.sitesOfAll_cons, List.map_append,
      Statement.sites_behind s, Place.past_behind, Statement.sitesOfAll_behind ss]

theorem Block.sites_behind : ∀ (b : Block) (place : Place),
    b.sites (place.behind first) = (b.sites place).map (Site.behind first)
  | .mk ss _, place => Statement.sitesOfAll_behind ss place

theorem Statement.sitesOfBranches_behind : ∀ (branches : List (Option Condition × Block))
    (place inner : Place),
    Statement.sitesOfBranches (place.behind first) (inner.behind first) branches
      = (Statement.sitesOfBranches place inner branches).map (Site.behind first)
  | [], _, _ => rfl
  | (some test, body) :: others, place, inner => by
    rw [Statement.sitesOfBranches_some, Statement.sitesOfBranches_some, List.map_append,
      List.map_append, Place.sites_behind, Block.sites_behind body,
      Statement.sitesOfBranches_behind others]
  | (none, body) :: others, place, inner => by
    rw [Statement.sitesOfBranches_none, Statement.sitesOfBranches_none, List.map_append,
      Block.sites_behind body, Statement.sitesOfBranches_behind others]

theorem Statement.sitesOfArms_behind : ∀ (arms : List (Literal × Block)) (inner : Place),
    Statement.sitesOfArms (inner.behind first) arms
      = (Statement.sitesOfArms inner arms).map (Site.behind first)
  | [], _ => rfl
  | (label, body) :: others, inner => by
    rw [Statement.sitesOfArms_cons, Statement.sitesOfArms_cons, List.map_append,
      Block.sites_behind body, Statement.sitesOfArms_behind others]

end

end Behind

/-! ## Presets -/

/-- The assignment of zero to a variable. -/
def Variable.preset (v : Variable) : Statement :=
  .assign v (.term (.number (.zero false))) none

/-- The program with assignments of zero in front of its statements. -/
def Program.preset (vs : List Variable) (p : Program) : Program :=
  ⟨p.name, .mk (vs.map Variable.preset ++ p.body.statements) p.body.diagnostics⟩

/-- A preset reads nothing. -/
theorem Statement.sitesOfAll_presets (vs : List Variable) (place : Place) (ss : List Statement) :
    Statement.sitesOfAll place (vs.map Variable.preset ++ ss)
      = Statement.sitesOfAll (place.past (vs.map Variable.preset)) ss := by
  induction vs generalizing place with
  | nil =>
    obtain ⟨around, before⟩ := place
    simp only [List.map_nil, List.nil_append, Place.past, List.append_nil]
  | cons v vs ih =>
    rw [List.map_cons, List.cons_append, Statement.sitesOfAll_cons, ih]
    simp only [Place.past, List.append_assoc, List.singleton_append]
    rfl

/-- A program with presets has the sites of the program, moved behind the presets. -/
theorem Program.sites_preset (vs : List Variable) (p : Program) :
    (p.preset vs).sites = p.sites.map (Site.behind (vs.map Variable.preset)) := by
  obtain ⟨name, ss, ds⟩ := p
  have hstart : Place.start.past (vs.map Variable.preset)
      = Place.start.behind (vs.map Variable.preset) := by
    simp [Place.start, Place.past, Place.behind]
  show Statement.sitesOfAll .start (vs.map Variable.preset ++ ss)
    = (Statement.sitesOfAll .start ss).map _
  rw [Statement.sitesOfAll_presets, hstart, Statement.sitesOfAll_behind]

/-- What was preset is known. -/
theorem Statement.known_presets {vs : List Variable} {v : Variable} (hv : v ∈ vs) :
    Statement.known (vs.map Variable.preset) v.name = true := by
  obtain ⟨before, later, rfl⟩ := List.append_of_mem hv
  rw [List.map_append, List.map_cons, List.append_cons]
  apply Statement.known_append_of_known
  rw [Statement.known_concat]
  exact Statement.extend_eq_true_iff.2
    (.inr ⟨v, [], rfl, rfl, fun r hr => absurd hr List.not_mem_nil⟩)

/-- What presets make known are the names of the variables that they set. -/
theorem Statement.known_presets_iff {vs : List Variable} {name : String} :
    Statement.known (vs.map Variable.preset) name = true ↔ name ∈ vs.map Variable.name := by
  constructor
  · intro hknown
    obtain ⟨before, s, later, v, reads, hsplit, hs, rfl, -⟩ := Statement.exists_of_known hknown
    have hmem : s ∈ vs.map Variable.preset :=
      hsplit ▸ List.mem_append_right before List.mem_cons_self
    obtain ⟨w, hw, rfl⟩ := List.mem_map.1 hmem
    cases hs
    exact List.mem_map_of_mem hw
  · intro hname
    obtain ⟨v, hv, rfl⟩ := List.mem_map.1 hname
    exact Statement.known_presets hv

/-- Statements further ahead make nothing unknown. -/
theorem Statement.known_append_left {ss : List Statement} {name : String}
    (h : Statement.known ss name = true) (first : List Statement) :
    Statement.known (first ++ ss) name = true := by
  rw [Statement.known, List.foldl_append]
  exact Statement.foldl_extend_mono (fun _ hfalse => by cases hfalse) ss name h

/-- The undefined reads of a program with presets are those that the presets do not make known. -/
theorem Program.undefinedReads_preset_eq (vs : List Variable) (p : Program) :
    (p.preset vs).undefinedReads
      = (p.sites.filter fun site => !Statement.known (vs.map Variable.preset ++ site.place.visible)
          site.occurrence.name).map fun site => site.occurrence.report := by
  rw [Program.undefinedReads_eq, Program.sites_preset, Site.unresolved, List.filter_map,
    List.map_map]
  simp only [Function.comp_def, Site.behind, Place.visible_behind]

theorem Diagnostic.undefinedRead_inj {a b : String} {p q : Position}
    (h : Diagnostic.undefinedRead a p = .undefinedRead b q) : a = b := by
  obtain rfl : p = q := Option.some.inj (congrArg Diagnostic.position h)
  exact Diagnostic.undefinedRead_injective p h

/-- Presets only take undefined reads away. None of the variables that are preset is among those
that stay, and none stays at all if every variable that was reported is preset. -/
theorem Program.undefinedReads_preset (p : Program) (vs : List Variable) :
    (p.preset vs).undefinedReads.Sublist p.undefinedReads ∧
    (∀ v ∈ vs, ∀ position,
      Diagnostic.undefinedRead v.name position ∉ (p.preset vs).undefinedReads) ∧
    ((∀ name position, Diagnostic.undefinedRead name position ∈ p.undefinedReads →
        name ∈ vs.map Variable.name) →
      (p.preset vs).undefinedReads = []) := by
  have hsublist : (p.preset vs).undefinedReads.Sublist p.undefinedReads := by
    rw [Program.undefinedReads_preset_eq, Program.undefinedReads_eq, Site.unresolved]
    -- The reads are the same, and each of those that are resolved stays so.
    refine List.Sublist.map _ (List.monotone_filter_right _ fun site hsite => ?_)
    rw [Bool.not_eq_true', Bool.eq_false_iff] at hsite ⊢
    exact fun hknown => hsite (Statement.known_append_left hknown _)
  have hpreset : ∀ v ∈ vs, ∀ position,
      Diagnostic.undefinedRead v.name position ∉ (p.preset vs).undefinedReads := by
    intro v hv position hmem
    rw [Program.undefinedReads_preset_eq] at hmem
    obtain ⟨site, hsite, hreport⟩ := List.mem_map.1 hmem
    have hname : site.occurrence.name = v.name := Diagnostic.undefinedRead_inj hreport
    have hknown := Statement.known_append_of_known (Statement.known_presets hv) site.place.visible
    simp only [List.mem_filter, hname, hknown] at hsite
    cases hsite.2
  -- What is left would be among what was reported before, and so among the variables
  -- that are preset.
  refine ⟨hsublist, hpreset, fun hall => List.eq_nil_iff_forall_not_mem.2 fun d hd => ?_⟩
  obtain ⟨u, rfl⟩ := Program.isUndefinedRead_of_mem_undefinedReads hd
  obtain ⟨v, hv, hname⟩ := List.mem_map.1 (hall u.name u.position (hsublist.subset hd))
  rw [← hname] at hd
  exact hpreset v hv u.position hd

/-- Two assignments that fail one after the other, and a read of a variable that nothing assigns. -/
def cascadeProgram : Program :=
  ⟨"cascade", .mk [.assign ⟨"A", ⟨2, 2⟩⟩ (.term (.var ⟨"B", ⟨2, 4⟩⟩)) none,
    .assign ⟨"C", ⟨3, 2⟩⟩ (.term (.var ⟨"A", ⟨3, 4⟩⟩)) none,
    .output [.var ⟨"C", ⟨4, 4⟩⟩, .var ⟨"D", ⟨4, 6⟩⟩]] []⟩

theorem cascadeProgram_preset :
    cascadeProgram.undefinedReads = [.undefinedRead "B" ⟨2, 4⟩, .undefinedRead "A" ⟨3, 4⟩,
      .undefinedRead "C" ⟨4, 4⟩, .undefinedRead "D" ⟨4, 6⟩] ∧
    ((cascadeProgram.preset [⟨"B", ⟨1, 2⟩⟩]).undefinedReads = [.undefinedRead "D" ⟨4, 6⟩] ∧
      (cascadeProgram.preset [⟨"B", ⟨1, 2⟩⟩]).undefinedReads.Sublist
        cascadeProgram.undefinedReads) ∧
    (cascadeProgram.preset [⟨"D", ⟨1, 2⟩⟩, ⟨"C", ⟨1, 8⟩⟩, ⟨"B", ⟨1, 14⟩⟩,
      ⟨"A", ⟨1, 20⟩⟩]).undefinedReads = [] := by
  have hreads : cascadeProgram.undefinedReads = [.undefinedRead "B" ⟨2, 4⟩,
      .undefinedRead "A" ⟨3, 4⟩, .undefinedRead "C" ⟨4, 4⟩, .undefinedRead "D" ⟨4, 6⟩] := by
    decide +kernel
  refine ⟨hreads, ⟨by decide +kernel, (cascadeProgram.undefinedReads_preset _).1⟩,
    (cascadeProgram.undefinedReads_preset _).2.2 ?_⟩
  intro name position hmem
  rw [hreads] at hmem
  simp only [List.mem_cons, List.not_mem_nil, or_false] at hmem
  rcases hmem with h | h | h | h <;> rw [Diagnostic.undefinedRead_inj h] <;> decide

end Zed
