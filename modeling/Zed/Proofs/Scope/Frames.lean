import Zed.Proofs.Scope.Presets

/-!
# Only the innermost frame grows

What a walk does to the frames that are open when it begins. Whatever stands in them and whatever
was reported before, a statement leaves all but the innermost frame as they are and adds at most one
name to that one, the target of an assignment or the counter of a counting loop. Statements in a row
do this one after the other. A block and a condition add no name at all. Reports come at the end of
those that were there, and which ones come depends on the frames alone (`Scope.frames_balanced`).

The frames are followed by the relations of a walk to its start. For the reports, every
stack of frames is read as the list of presets of its names: what is reported is then what
is unresolved behind these.
-/

set_option autoImplicit false

namespace Zed

/-! ## Growth -/

/-- The name that a statement adds to the innermost of the open frames: the target of an assignment
if each of its reads is in some frame, the counter of a counting loop in any case. -/
def Statement.addition? (frames : List (List String)) : Statement → Option String
  | .assign target value operator =>
    if ∀ v ∈ Statement.assignReads target value operator, ∃ frame ∈ frames, v.name ∈ frame then
      some target.name
    else none
  | .forLoop counter _ _ _ _ => some counter.name
  | _ => none

/-- The innermost frame behind a statement, if it was `top` in front of it. -/
def Statement.grow (below : List (List String)) (top : List String) (s : Statement) : List String :=
  match s.addition? (top :: below) with
  | some name => top.insert name
  | none => top

namespace Scope

variable {scope : Scope} {top : List String} {below : List (List String)}

/-- A name is defined if it stands in one of the frames. -/
theorem defines_eq_true_iff {name : String} :
    scope.defines name = true ↔ ∃ frame ∈ scope.frames, name ∈ frame := by
  rw [defines, List.any_eq_true]
  simp only [List.contains_iff_mem]

/-- All variables are defined if the name of each stands in one of the frames. -/
theorem definesAll_eq_true_iff {vs : List Variable} :
    scope.definesAll vs = true ↔ ∀ v ∈ vs, ∃ frame ∈ scope.frames, v.name ∈ frame := by
  rw [definesAll, List.all_eq_true]
  simp only [defines_eq_true_iff]

/-- A statement that can define nothing leaves the frames as they are. -/
theorem statement_reports {s : Statement} (hs : s.definition? = none) (scope : Scope) :
    Reports scope (statement s scope) := by
  cases s with
  | assign target value operator => cases hs
  | forLoop counter start stop step body => cases hs
  | output terms =>
    rw [statement]
    exact readTerms_reports terms scope
  | whileLoop test body =>
    rw [statement]
    exact (readCondition_reports test scope).trans (block_reports body _)
  | untilLoop body test =>
    obtain ⟨ss, ds⟩ := body
    rw [statement]
    -- The test is read in the frame of the body, which is closed behind it.
    exact reports_leave_of_enter ((statements_extends ss scope.enter).readCondition test)
  | choice branches =>
    rw [statement]
    exact choice_reports branches scope
  | switch subject arms =>
    rw [statement]
    exact (readVar_reports subject scope).trans (switch_reports arms _)

/-- An assignment changes the innermost frame only. -/
theorem assign_frames (hframes : scope.frames = top :: below) (target : Variable) (value : Value)
    (operator : Option Arithmetic) :
    (scope.assign target value operator).frames
      = Statement.grow below top (.assign target value operator) :: below := by
  rw [assign_eq, Statement.grow, Statement.addition?, ← hframes]
  by_cases hreads : scope.definesAll (Statement.assignReads target value operator) = true
  · rw [if_pos hreads, if_pos (definesAll_eq_true_iff.1 hreads)]
    simp only [define, afterReads, hframes, List.modifyHead_cons]
  · rw [if_neg hreads, if_neg (mt definesAll_eq_true_iff.2 hreads)]
    exact hframes

/-- A statement changes the innermost frame only: the frames it opens are closed again. -/
theorem statement_frames (hframes : scope.frames = top :: below) (s : Statement) :
    (statement s scope).frames = s.grow below top :: below := by
  cases s with
  | assign target value operator =>
    rw [statement]
    exact assign_frames hframes target value operator
  | forLoop counter start stop step body =>
    rw [statement, (block_reports body _).frames]
    simp only [define, hframes, List.modifyHead_cons]
    rfl
  | _ => exact (statement_reports rfl scope).frames.trans hframes

/-- Statements in a row grow the innermost frame one after the other. -/
theorem statements_frames (hframes : scope.frames = top :: below) (ss : List Statement) :
    (statements ss scope).frames = ss.foldl (Statement.grow below) top :: below := by
  induction ss generalizing scope top with
  | nil =>
    rw [statements]
    exact hframes
  | cons s ss ih =>
    rw [statements]
    exact ih (statement_frames hframes s)

end Scope

/-! ## Reports -/

/-- A place at which the names in the frames are known, behind presets of them. -/
def Place.ofFrames (frames : List (List String)) : Place :=
  ⟨[], (frames.flatten.map fun name => ⟨name, ⟨1, 0⟩⟩).map Variable.preset⟩

namespace Scope

variable {top : List String} {below : List (List String)}

/-- A scope knows the statements that its frames stand for. -/
theorem knows_ofFrames (top : List String) (below : List (List String))
    (reports : Array Diagnostic) :
    Knows ⟨top :: below, reports⟩ (Place.ofFrames (top :: below)).visible := by
  refine ⟨List.cons_ne_nil top below, ?_⟩
  funext name
  rw [Bool.eq_iff_iff, defines_eq_true_iff]
  simp only [Place.ofFrames, Place.visible, List.flatMap_nil, List.nil_append]
  rw [Statement.known_presets_iff, List.map_map]
  simp only [Function.comp_def, List.map_id', List.mem_flatten]

/-- What a walk over reads adds to the reports depends on the frames alone, since the reads it
reports are the unresolved ones. -/
theorem exists_new_reports {walk : Scope → Scope} {grown : List String} {sites : List Site}
    {ss : List Statement}
    (hframes : ∀ reports, (walk ⟨top :: below, reports⟩).frames = grown :: below)
    (hwalked : ∀ reports, Walked ⟨top :: below, reports⟩ (walk ⟨top :: below, reports⟩) sites ss) :
    ∃ new, ∀ reports, walk ⟨top :: below, reports⟩ = ⟨grown :: below, reports ++ new⟩ := by
  refine ⟨(Site.unresolved sites).toArray, fun reports => ?_⟩
  have hreports : (walk ⟨top :: below, reports⟩).reports
      = reports ++ (Site.unresolved sites).toArray := by
    apply Array.toList_inj.1
    rw [(hwalked reports).reports, Array.toList_append]
  rw [← hframes reports, ← hreports]

/-- Whatever frames are open and whatever was reported, a statement adds at most one name to the
innermost frame, its own target or counter, statements add theirs one after the other, and a block
and a condition add none. No other frame changes, none is left open or closed, and there are reports
only at the end, the same ones whatever stood before them. -/
theorem frames_balanced (top : List String) (below : List (List String)) :
    (∀ s : Statement, ∃ new, ∀ reports,
      statement s ⟨top :: below, reports⟩ = ⟨s.grow below top :: below, reports ++ new⟩) ∧
    (∀ ss : List Statement, ∃ new, ∀ reports,
      statements ss ⟨top :: below, reports⟩
        = ⟨ss.foldl (Statement.grow below) top :: below, reports ++ new⟩) ∧
    (∀ b : Block, ∃ new, ∀ reports,
      block b ⟨top :: below, reports⟩ = ⟨top :: below, reports ++ new⟩) ∧
    ∀ c : Condition, ∃ new, ∀ reports,
      readCondition c ⟨top :: below, reports⟩ = ⟨top :: below, reports ++ new⟩ := by
  have hknows := knows_ofFrames top below
  refine ⟨fun s => ?_, fun ss => ?_, fun b => ?_, fun c => ?_⟩
  · exact exists_new_reports (fun _ => statement_frames rfl s)
      (fun reports => statement_walked s _ _ (hknows reports))
  · exact exists_new_reports (fun _ => statements_frames rfl ss)
      (fun reports => statements_walked ss _ _ (hknows reports))
  · exact exists_new_reports (fun _ => (block_reports b _).frames)
      (fun reports => block_walked b _ _ (hknows reports))
  · exact exists_new_reports (fun _ => (readCondition_reports c _).frames)
      (fun reports => readCondition_walked (hknows reports) c)

end Scope

end Zed
