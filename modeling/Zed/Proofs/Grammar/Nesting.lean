import Zed.Proofs.Grammar.Course
import Zed.Token.Scan

/-!
# Diagnostics of nested blocks

A block keeps what was reported in the blocks inside it, among its own diagnostics and in the order
of the blocks (`Block.Gathers`). A compound statement hands the diagnostics of its bodies on, one
body after the other, and the block around it appends them to what it has. So the diagnostics of a
program are those of its body, and the one about a token behind the end (`Reading.blocks_gather`).

By induction on the derivation with recovery, every phrase collects the diagnostics of the blocks
directly inside it (`Recovers.collects`).
-/

set_option autoImplicit false

namespace Zed

/-! ## Blocks inside blocks -/

/-- The blocks directly inside a statement, in the order in which they are written. -/
def Statement.bodies : Statement → List Block
  | .assign _ _ _ => []
  | .output _ => []
  | .whileLoop _ body => [body]
  | .untilLoop body _ => [body]
  | .forLoop _ _ _ _ body => [body]
  | .choice branches => branches.map Prod.snd
  | .switch _ arms => arms.map Prod.snd

namespace Block

/-- The blocks directly inside the statements of a block. -/
def bodies (b : Block) : List Block :=
  b.statements.flatMap Statement.bodies

/-- The block itself and the blocks inside it, at any depth. -/
inductive Encloses : Block → Block → Prop
  | self (b : Block) : Encloses b b
  | inside {outer inner b : Block} : inner ∈ outer.bodies → Encloses inner b → Encloses outer b

/-- The diagnostics of the blocks directly inside it are among those of the block,
in their order. -/
def Gathers (b : Block) : Prop :=
  (b.bodies.flatMap diagnostics).Sublist b.diagnostics

/-- The block gathers diagnostics, and so does every block inside it. -/
def GathersAll (b : Block) : Prop :=
  ∀ c, b.Encloses c → c.Gathers

/-- The diagnostics of the bodies are among what was found, and each body gathers
those inside it. -/
structure Collects (bodies : List Block) (found : List Diagnostic) : Prop where
  found : (bodies.flatMap diagnostics).Sublist found
  bodies : ∀ c ∈ bodies, c.GathersAll

/-- A block gathers all reports of the blocks inside it exactly if it collects those of the bodies
of its statements. -/
theorem gathersAll_iff {b : Block} : b.GathersAll ↔ Collects b.bodies b.diagnostics := by
  constructor
  · intro h
    exact ⟨h b (.self b), fun c hc d hd => h d (.inside hc hd)⟩
  · intro h c hc
    cases hc with
    | self => exact h.found
    | inside hinner hc => exact h.bodies _ hinner c hc

theorem Collects.nil (found : List Diagnostic) : Collects [] found :=
  ⟨List.nil_sublist found, fun _ hc => absurd hc List.not_mem_nil⟩

theorem Collects.singleton {body : Block} (h : body.GathersAll) :
    Collects [body] body.diagnostics := by
  have hone : [body].flatMap diagnostics = body.diagnostics := List.flatMap_singleton ..
  exact ⟨hone.symm ▸ List.Sublist.refl _, List.forall_mem_singleton.2 h⟩

/-- Lists of bodies in a row are collected by their reports in a row. -/
theorem Collects.append {bodies others : List Block} {found more : List Diagnostic}
    (h : Collects bodies found) (hothers : Collects others more) :
    Collects (bodies ++ others) (found ++ more) := by
  refine ⟨?_, List.forall_mem_append.2 ⟨h.bodies, hothers.bodies⟩⟩
  rw [List.flatMap_append]
  exact h.found.append hothers.found

/-- A block without diagnostics has none inside it. -/
theorem GathersAll.diagnostics_eq_nil {b c : Block} (h : b.GathersAll) (hc : b.Encloses c)
    (hnil : b.diagnostics = []) : c.diagnostics = [] := by
  induction hc with
  | self b => exact hnil
  | @inside outer inner c hinner _ ih =>
    obtain ⟨hfound, hbodies⟩ := gathersAll_iff.1 h
    rw [hnil, List.sublist_nil, List.flatMap_eq_nil_iff] at hfound
    exact ih (hbodies inner hinner) (hfound inner hinner)

end Block

/-! ## Phrases -/

/-- The blocks directly inside a phrase, in their order. -/
def Phrase.bodies : Phrase → List Block
  | .simple s => s.bodies
  | .compound s => s.bodies
  | .items ss => ss.flatMap Statement.bodies
  | .doBlock body => [body]
  | .branches others => others.map Prod.snd
  | .arms others => others.map Prod.snd
  | _ => []

/-- A simple statement has no body. -/
theorem Derives.bodies_eq_nil {ts : List Token} {s : Statement} (h : Derives ts (.simple s)) :
    s.bodies = [] := by
  cases h <;> rfl

/-- A phrase hands on the diagnostics of its blocks. What is skipped, and a statement that fails
after some of its blocks were read, adds to the diagnostics and to nothing else. -/
theorem Recovers.collects {ts : List Token} {phrase : Phrase} {ds : List Diagnostic}
    (h : Recovers ts phrase ds) : Block.Collects phrase.bodies ds := by
  induction h with
  | noItem | noBranch | noArm => exact .nil []
  | colonItem _ _ ih => exact ih
  | refusedItem _ _ ih => exact (Block.Collects.nil _).append ih
  | @simpleItem us ts s ss found ds hsimple _ _ ih =>
    have hbodies : (Phrase.items (s :: ss)).bodies = [] ++ (Phrase.items ss).bodies :=
      congrArg (· ++ _) hsimple.bodies_eq_nil
    rw [hbodies]
    exact (Block.Collects.nil found).append ih
  | compoundItem _ _ ihs ih => exact ihs.append ih
  | doBlock _ _ _ ih => exact .singleton (Block.gathersAll_iff.2 ih)
  | whileLoop _ _ _ _ ih | untilLoop _ _ _ _ _ ih | forLoop _ _ _ _ _ _ _ _ _ _ _ ih => exact ih
  | choice _ _ _ _ _ ihbody ih => exact ihbody.append ih
  | lastBranch _ _ ih => exact ih
  | nextBranch _ _ _ _ _ ihbody ih => exact ihbody.append ih
  | switch _ _ _ _ ih => exact ih
  | nextArm _ _ _ _ ihbody ih => exact ihbody.append ih

/-! ## Programs -/

/-- Every block of a program that was read, at any depth, has the diagnostics of the blocks
directly inside it among its own, in the order in which the blocks stand. The diagnostics of the
reading are those of the body, and one more if a token follows `ENDPROG`. So if there are none, no
block has any. -/
theorem Reading.blocks_gather {ts : List Token} {p : Program} (h : (ofTokens ts).program = some p) :
    (∀ b, p.body.Encloses b → (b.bodies.flatMap Block.diagnostics).Sublist b.diagnostics) ∧
    (∃ before closing rest, ts = before ++ closing :: rest ∧ closing.isKeyword .ENDPROG = true ∧
      (ofTokens ts).diagnostics
        = p.body.diagnostics ++ rest.head?.toList.map (Expectation.blame .endOfProgram)) ∧
    ((ofTokens ts).diagnostics = [] → ∀ b, p.body.Encloses b → b.diagnostics = []) := by
  obtain ⟨opening, title, us, closing, rest, hts, -, -, hus, hclosing, hds⟩ :=
    recovers_of_program_eq_some h
  have hgathers : p.body.GathersAll := Block.gathersAll_iff.2 hus.collects
  refine ⟨hgathers, ?_, fun hnil b hb => ?_⟩
  · refine ⟨opening :: title :: us, closing, rest, hts, hclosing, ?_⟩
    rw [hds]
    cases rest <;> rfl
  · rw [hds] at hnil
    exact hgathers.diagnostics_eq_nil hb (List.append_eq_nil_iff.1 hnil).1

/-- Faults in both arms of a switch inside a branch, in the other branch, in a loop that fails
behind its body, and behind the end. -/
def nestedFaultsSource : String :=
  String.join ["PROG layers ", "IF == A 1 DO @ : ", "SWITCH A WHEN 1 DO ", "= 2: = 3: ENDDO ",
    "WHEN \"b\" DO OUT[A] ", "ENDDO ENDSWITCH ENDDO ", "OTHERWISE DO ", "WHEN > A 1 DO ? : ",
    "ENDDO ENDWHEN ENDDO ", "ENDIF REPEAT DO ", "ENDIF : ENDDO ENDREPEAT: ", "ENDPROG end"]

theorem nestedFaultsSource_gather :
    let r := Reading.ofTokens (Token.ofSource nestedFaultsSource)
    ∃ p, r.program = some p ∧ r.diagnostics.length = 9 ∧ p.body.diagnostics.length = 8 ∧
      p.body.bodies.map
        (fun b => (b.diagnostics.length, b.bodies.map fun c => c.diagnostics.length))
        = [(4, [2, 1]), (1, [1])] ∧
      ∀ b, p.body.Encloses b → (b.bodies.flatMap Block.diagnostics).Sublist b.diagnostics := by
  intro r
  have hcounts : r.diagnostics.length = 9 ∧ r.program.map (fun p => (p.body.diagnostics.length,
      p.body.bodies.map
        fun b => (b.diagnostics.length, b.bodies.map fun c => c.diagnostics.length)))
        = some (8, [(4, [2, 1]), (1, [1])]) := by
    rw [show r = Reading.ofTokens _ from congrArg Reading.ofTokens (Token.ofSource_join _)]
    decide +kernel
  obtain ⟨p, hp, hbodies⟩ := Option.map_eq_some_iff.1 hcounts.2
  obtain ⟨hbody, hbodies⟩ := Prod.mk.inj hbodies
  exact ⟨p, hp, hcounts.1, hbody, hbodies, (Reading.blocks_gather hp).1⟩

end Zed
