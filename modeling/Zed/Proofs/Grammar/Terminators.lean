import Zed.Proofs.Grammar.Containment
import Zed.Proofs.Program.Anatomy
import Zed.Proofs.Program.Erasure

/-!
# Missing terminators

A simple statement should be followed by a colon. If it is not, that is reported, and nothing else
happens: the rule for the statement leaves the next token in place, and the block goes on there. So
colons can be taken out of a program that is read without a fault, as many as one likes and at any
depth. What is read is the same program, and each statement that has lost its colon is reported with
the token that follows it now (`Reading.ofTokens_thinned`).

The proof follows the derivation of the program. Every part of it is read from what is left of its
tokens (`Tolerates`), and beside what is read goes a list of the simple statements in it, each with
the token after it (`Tally`).
-/

set_option autoImplicit false

namespace Zed

/-! ## Tokens without some of the colons -/

/-- Some of the colons among the tokens are left out. -/
inductive Thinned : List Token → List Token → Prop
  | nil : Thinned [] []
  | keep {t : Token} {ts us : List Token} : Thinned ts us → Thinned (t :: ts) (t :: us)
  | drop {colon : Token} {ts us : List Token} :
      colon.isSymbol .colon = true → Thinned ts us → Thinned (colon :: ts) us

/-- The first token of an output or an assignment. -/
def Token.startsSimple (t : Token) : Bool :=
  t.isKeyword .OUT || t.isSymbol .assign

/-- None of the tokens starts a simple statement or is a colon. -/
def Frame (us : List Token) : Prop :=
  ∀ t ∈ us, t.isSymbol .colon = false ∧ t.startsSimple = false

namespace Frame

variable {t : Token} {us vs : List Token}

theorem nil : Frame [] :=
  fun _ ht => absurd ht List.not_mem_nil

theorem single (hword : ∀ word, t.isKeyword word = false)
    (hsign : ∀ sign, t.isSymbol sign = false) : Frame [t] := by
  refine List.forall_mem_singleton.2 ⟨hsign _, ?_⟩
  rw [Token.startsSimple, hword, hsign]
  rfl

theorem append (hus : Frame us) (hvs : Frame vs) : Frame (us ++ vs) :=
  List.forall_mem_append.2 ⟨hus, hvs⟩

theorem cons_keyword {word : Keyword} (ht : t.isKeyword word = true) (hword : word ≠ .OUT)
    (hus : Frame us) :
    Frame (t :: us) := by
  refine List.forall_mem_cons.2 ⟨⟨Token.isSymbol_eq_false_of_isKeyword ht, ?_⟩, hus⟩
  rw [Token.startsSimple, Token.isKeyword_eq_false_of_ne ht hword,
    Token.isSymbol_eq_false_of_isKeyword ht]
  rfl

theorem cons_symbol {sign : Symbol} (ht : t.isSymbol sign = true) (hcolon : sign ≠ .colon)
    (hassign : sign ≠ .assign) (hus : Frame us) : Frame (t :: us) := by
  refine List.forall_mem_cons.2 ⟨⟨Token.isSymbol_eq_false_of_ne ht hcolon, ?_⟩, hus⟩
  rw [Token.startsSimple, Token.isKeyword_eq_false_of_isSymbol ht,
    Token.isSymbol_eq_false_of_ne ht hassign]
  rfl

end Frame

/-- The parts of the head of a compound statement. -/
def Phrase.isPart : Phrase → Bool
  | .var _ | .number _ | .literal _ | .term _ | .operand _ | .condition _ => true
  | _ => false

/-- In the parts of the head of a statement there is no colon, and no simple statement begins. -/
theorem Derives.frame {us : List Token} {φ : Phrase} (h : Derives us φ) :
    φ.isPart = true → Frame us := by
  induction h with
  | var hk | textLiteral hk | textTerm hk | number hk _ =>
    exact fun _ => .single (by simp [Token.isKeyword, hk]) (by simp [Token.isSymbol, hk])
  | numberLiteral _ ih | varTerm _ ih | numberTerm _ ih | termOperand _ ih
      | conditionOperand _ ih =>
    exact fun _ => ih rfl
  | @relation _ _ _ r _ _ hsign _ _ ih ih' =>
    exact fun _ =>
      (Frame.cons_symbol hsign (by cases r <;> decide) (by cases r <;> decide) (ih rfl)).append
        (ih' rfl)
  | negation hbang _ ih => exact fun _ => .cons_symbol hbang (by decide) (by decide) (ih rfl)
  | _ =>
    intro hpart
    cases hpart

namespace Thinned

variable {ts us vs : List Token}

/-- A filter that drops nothing but colons thins the tokens. -/
theorem of_filter {keep : Token → Bool} (hkeep : ∀ t, keep t = false → t.isSymbol .colon = true)
    (ts : List Token) : Thinned ts (ts.filter keep) := by
  induction ts with
  | nil => exact .nil
  | cons t ts ih =>
    rw [List.filter_cons]
    cases h : keep t with
    | true => exact .keep ih
    | false => exact .drop (hkeep t h) ih

/-- What is left of tokens in a row is what is left of the first ones and of the others. -/
theorem of_append (h : Thinned (ts ++ us) vs) :
    ∃ ts' us', vs = ts' ++ us' ∧ Thinned ts ts' ∧ Thinned us us' := by
  induction ts generalizing vs with
  | nil => exact ⟨[], vs, rfl, .nil, h⟩
  | cons t ts ih =>
    cases h with
    | keep h =>
      obtain ⟨ts', us', rfl, hts, hus⟩ := ih h
      exact ⟨t :: ts', us', rfl, .keep hts, hus⟩
    | drop hcolon h =>
      obtain ⟨ts', us', rfl, hts, hus⟩ := ih h
      exact ⟨ts', us', rfl, .drop hcolon hts, hus⟩

/-- A token that is no colon is left. -/
theorem of_cons {t : Token} (ht : t.isSymbol .colon = false) (h : Thinned (t :: ts) us) :
    ∃ us', us = t :: us' ∧ Thinned ts us' := by
  cases h with
  | keep h => exact ⟨_, rfl, h⟩
  | drop hcolon _ =>
    rw [ht] at hcolon
    cases hcolon

/-- Tokens that are no colons stay. -/
theorem eq_of_no_colon (h : Thinned ts us) (hts : ∀ t ∈ ts, t.isSymbol .colon = false) :
    us = ts := by
  induction h with
  | nil => rfl
  | keep _ ih => rw [ih fun t ht => hts t (List.mem_cons_of_mem _ ht)]
  | drop hcolon _ _ =>
    rw [hts _ List.mem_cons_self] at hcolon
    cases hcolon

/-- All tokens of a frame are left. -/
theorem of_frame_append (hts : Frame ts) (h : Thinned (ts ++ us) vs) :
    ∃ us', vs = ts ++ us' ∧ Thinned us us' := by
  obtain ⟨ts', us', rfl, hts', hus⟩ := h.of_append
  exact ⟨us', by rw [hts'.eq_of_no_colon fun t ht => (hts t ht).1], hus⟩

/-- The part between two frames is thinned, and they stay. -/
theorem of_framed {bs : List Token} (hts : Frame ts) (hus : Frame us)
    (h : Thinned (ts ++ (bs ++ us)) vs) :
    ∃ bs', vs = ts ++ (bs' ++ us) ∧ Thinned bs bs' := by
  obtain ⟨rest, rfl, hrest⟩ := h.of_frame_append hts
  obtain ⟨bs', us', rfl, hbs, hus'⟩ := hrest.of_append
  exact ⟨bs', by rw [hus'.eq_of_no_colon fun t ht => (hus t ht).1], hbs⟩

end Thinned

/-! ## What follows the simple statements -/

/-- The simple statements that begin among the tokens, in order, and the token that follows
each of them. -/
inductive Followed : List Token → List (Statement × Token) → Prop
  | none {ts : List Token} : (∀ t ∈ ts, t.startsSimple = false) → Followed ts []
  | next {pre us rest : List Token} {t : Token} {s : Statement} {pairs : List (Statement × Token)} :
      (∀ t ∈ pre, t.startsSimple = false) → Derives us (.simple s) → Followed (t :: rest) pairs →
      Followed (pre ++ (us ++ t :: rest)) ((s, t) :: pairs)

/-- Tokens in front, where no simple statement begins, change nothing. -/
theorem Followed.append_left {pre ts : List Token} {pairs : List (Statement × Token)}
    (h : Followed ts pairs) (hpre : ∀ t ∈ pre, t.startsSimple = false) :
    Followed (pre ++ ts) pairs := by
  cases h with
  | none hts => exact .none (List.forall_mem_append.2 ⟨hpre, hts⟩)
  | next hts hsimple hrest =>
    rw [← List.append_assoc]
    exact .next (List.forall_mem_append.2 ⟨hpre, hts⟩) hsimple hrest

/-- The faults of those simple statements that are followed by something else than a colon. -/
def missingColons (pairs : List (Statement × Token)) : List Diagnostic :=
  (pairs.filter fun pair => !pair.2.isSymbol .colon).map
    fun pair => Expectation.blame (.symbol .colon) pair.2

/-- The missing colons of pairs in a row are those of the first ones and those of the others. -/
theorem missingColons_append (pairs more : List (Statement × Token)) :
    missingColons (pairs ++ more) = missingColons pairs ++ missingColons more := by
  rw [missingColons, List.filter_append, List.map_append]
  rfl

/-- A colon is missing after a statement if the token there is blamed for it. -/
theorem missingColons_cons (s : Statement) (t : Token) (pairs : List (Statement × Token)) :
    missingColons ((s, t) :: pairs) = Rule.colonFault t ++ missingColons pairs := by
  rw [missingColons, Rule.colonFault, List.filter_cons]
  cases t.isSymbol .colon <;> rfl

/-- A simple statement has no blocks. -/
theorem Derives.simple_shape {us : List Token} {s : Statement} (h : Derives us (.simple s)) :
    s.isSimple = true ∧ s.inner = [] ∧ s.clear = s := by
  cases h with
  | output => exact ⟨rfl, rfl, Statement.clear_output⟩
  | assignment => exact ⟨rfl, rfl, Statement.clear_assign⟩
  | update => exact ⟨rfl, rfl, Statement.clear_assign⟩

/-- The pairs are the simple ones among the statements `inner`, which are those in `us`, with the
tokens that follow them in front of `rest`. -/
structure Tally (us rest : List Token) (inner : List Statement)
    (pairs : List (Statement × Token)) : Prop where
  statements : pairs.map Prod.fst = inner.filter Statement.isSimple
  followed : ∀ {more : List (Statement × Token)}, Followed rest more →
    Followed (us ++ rest) (pairs ++ more)

namespace Tally

variable {us vs rest : List Token} {inner inner' : List Statement}
  {pairs pairs' : List (Statement × Token)}

theorem none (hus : ∀ t ∈ us, t.startsSimple = false) : Tally us rest [] [] :=
  ⟨rfl, fun h => h.append_left hus⟩

/-- A simple statement is tallied with the token behind it. -/
theorem simple {s : Statement} {t : Token} (h : Derives us (.simple s)) :
    Tally us (t :: rest) [s] [(s, t)] where
  statements := by
    rw [List.filter_cons_of_pos h.simple_shape.1]
    rfl
  followed hmore := .next (fun _ ht => absurd ht List.not_mem_nil) h hmore

/-- A compound statement is not among the pairs, but those inside it may be. -/
theorem compound {s : Statement} (hs : s.isSimple = false) (h : Tally us rest inner pairs) :
    Tally us rest (s :: inner) pairs where
  statements := by rw [h.statements, List.filter_cons_of_neg (by rw [hs]; decide)]
  followed := h.followed

/-- The tallies of tokens in a row make one tally. -/
theorem append (h : Tally us (vs ++ rest) inner pairs) (h' : Tally vs rest inner' pairs') :
    Tally (us ++ vs) rest (inner ++ inner') (pairs ++ pairs') where
  statements := by rw [List.map_append, List.filter_append, h.statements, h'.statements]
  followed hmore := by
    rw [List.append_assoc, List.append_assoc]
    exact h.followed (h'.followed hmore)

theorem behind_frame {pre : List Token} (h : Tally us rest inner pairs) (hpre : Frame pre) :
    Tally (pre ++ us) rest inner pairs :=
  (none fun t ht => (hpre t ht).2).append h

/-- A frame around the tokens leaves the tally as it is. -/
theorem framed {pre post : List Token} (h : Tally us (post ++ rest) inner pairs) (hpre : Frame pre)
    (hpost : Frame post) : Tally (pre ++ (us ++ post)) rest inner pairs := by
  have hright : Tally post rest [] [] := none fun t ht => (hpost t ht).2
  have hall := (h.append hright).behind_frame hpre
  rwa [List.append_nil, List.append_nil] at hall

end Tally

/-! ## Reading what is left -/

open Rule (Reaches arithmetic?)

/-- Whatever colons are missing among the tokens, what is left of them is read as the phrase, and
the simple statements that have no colon after them are reported. -/
def Tolerates (us : List Token) : Phrase → Prop
  | .items ss => ∀ (vs rest : List Token) (close : Keyword) (fuel : Nat) (next : Token),
      Thinned us vs → close.isCloser = true → vs.length < fuel → arithmetic? next = none →
      ∃ left new pairs,
        Reaches close fuel false (vs ++ next :: rest) left (next :: rest) new
          (missingColons pairs) ∧
          Statement.clearAll new = ss ∧ Tally vs (next :: rest) (Statement.innerOfAll ss) pairs
  | .doBlock b => ∀ (vs rest : List Token) (fuel : Nat), Thinned us vs → vs.length ≤ fuel →
      ∃ new pairs, Rule.doBlock (Rule.block fuel .ENDDO false) (vs ++ rest) = .done new rest ∧
        new.diagnostics = missingColons pairs ∧ new.clear = b ∧ Tally vs rest b.inner pairs
  | .branches branches => ∀ (vs rest : List Token) (fuel n : Nat) (closing : Token), Thinned us vs →
      vs.length < n → vs.length ≤ fuel → closing.isKeyword .ENDIF = true →
      ∃ new pairs, Rule.otherBranches (Rule.block fuel .ENDDO false) n (vs ++ closing :: rest)
          = .done (new, missingColons pairs) rest ∧
        Statement.clearBranches new = branches ∧
        Tally vs (closing :: rest) (Statement.innerOfBranches branches) pairs
  | .arms arms => ∀ (vs rest : List Token) (fuel n : Nat) (closing : Token), Thinned us vs →
      vs.length < n → vs.length ≤ fuel → closing.isKeyword .ENDSWITCH = true →
      ∃ new pairs, Rule.arms (Rule.block fuel .ENDDO false) n (vs ++ closing :: rest)
          = .done (new, missingColons pairs) rest ∧
        Statement.clearArms new = arms ∧
          Tally vs (closing :: rest) (Statement.innerOfArms arms) pairs
  | .compound s => ∀ (vs rest : List Token) (fuel : Nat), Thinned us vs → vs.length ≤ fuel →
      ∃ t ws rule new pairs, vs = t :: ws ∧
        Rule.statement? fuel (Rule.block fuel .ENDDO false) t.kind = some rule ∧
        rule (ws ++ rest) = .done (new, missingColons pairs) rest ∧ new.clear = s ∧
          Tally vs rest s.inner pairs
  | _ => True

theorem arithmetic?_keyword {t : Token} {word : Keyword} (h : t.isKeyword word = true) :
    arithmetic? t = none := by
  rw [arithmetic?, Token.isKeyword_iff.1 h]

/-- No operator stands at the beginning of what is left of the items of a block. -/
theorem Derives.exists_head_of_items {us : List Token} {ss : List Statement}
    (h : Derives us (.items ss)) {vs : List Token} (hvs : Thinned us vs) {next : Token}
    (hnext : arithmetic? next = none) (rest : List Token) :
    ∃ t ts, vs ++ next :: rest = t :: ts ∧ arithmetic? t = none := by
  -- Only colons can be passed over, so the induction goes on just where one is left out.
  generalize hφ : Phrase.items ss = φ at h
  induction h generalizing vs ss with
  | noItem =>
    cases hvs
    exact ⟨next, rest, rfl, hnext⟩
  | colonItem hcolon _ ih =>
    cases hφ
    cases hvs with
    | keep _ => exact ⟨_, _, rfl, Rule.arithmetic?_colon hcolon⟩
    | drop _ hvs => exact ih hvs rfl
  | simpleItem hsimple _ _ _ _ =>
    obtain ⟨t, us, rfl, ht⟩ := hsimple.simple_cons
    rcases ht with ht | ht
    · obtain ⟨ws, rfl, -⟩ := hvs.of_cons (Token.isSymbol_eq_false_of_isKeyword ht)
      exact ⟨t, _, rfl, arithmetic?_keyword ht⟩
    · obtain ⟨ws, rfl, -⟩ := hvs.of_cons (Token.isSymbol_eq_false_of_ne ht (by decide))
      refine ⟨t, _, rfl, ?_⟩
      rw [arithmetic?, Token.isSymbol_iff.1 ht]
      rfl
  | compoundItem hcompound _ _ _ =>
    obtain ⟨t, us, word, rfl, ht, -⟩ := hcompound.compound_cons
    obtain ⟨ws, rfl, -⟩ := hvs.of_cons (Token.isSymbol_eq_false_of_isKeyword ht)
    exact ⟨t, _, rfl, arithmetic?_keyword ht⟩
  | _ => cases hφ

namespace Tolerates

/-! ### Items of a block -/

section Items

variable {us ts : List Token} {s : Statement} {ss : List Statement}

/-- Without items there is nothing to miss. -/
theorem noItem : Tolerates [] (.items []) := by
  intro vs rest close fuel next hvs _ _ _
  cases hvs
  exact ⟨fuel, [], [], .refl, rfl, .none fun _ ht => absurd ht List.not_mem_nil⟩

/-- A colon of its own may be missing. -/
theorem colonItem {colon : Token} (hcolon : colon.isSymbol .colon = true)
    (hitems : Tolerates ts (.items ss)) :
    Tolerates (colon :: ts) (.items ss) := by
  intro vs rest close fuel next hvs hclose hlen hnext
  cases hvs with
  | drop _ hvs => exact hitems vs rest close fuel next hvs hclose hlen hnext
  | @keep _ _ vs hvs =>
    obtain ⟨fuel, rfl⟩ := Nat.exists_eq_add_one_of_ne_zero (Nat.ne_zero_of_lt hlen)
    obtain ⟨left, new, pairs, hreaches, hclear, htally⟩ :=
      hitems vs rest close fuel next hvs hclose (Nat.lt_of_succ_lt_succ hlen) hnext
    have hstarts : colon.startsSimple = false := by
      rw [Token.startsSimple, Token.isKeyword_eq_false_of_isSymbol hcolon,
        Token.isSymbol_eq_false_of_ne hcolon (by decide)]
      rfl
    have hfirst : Tally [colon] (vs ++ next :: rest) [] [] :=
      .none (List.forall_mem_singleton.2 hstarts)
    exact ⟨left, new, pairs, .pass (Nat.lt_succ_self _) (Rule.block_colon hcolon) hreaches, hclear,
      hfirst.append htally⟩

/-- The token that follows is the colon if it has stayed, and otherwise the beginning of the next
item or the keyword that closes the block. -/
theorem simpleItem {colon : Token} (hsimple : Derives us (.simple s))
    (hcolon : colon.isSymbol .colon = true) (hts : Derives ts (.items ss))
    (hitems : Tolerates ts (.items ss)) :
    Tolerates (us ++ colon :: ts) (.items (s :: ss)) := by
  intro vs rest close fuel next hvs hclose hlen hnext
  obtain ⟨us', ws, rfl, hus, hws⟩ := hvs.of_append
  rw [hus.eq_of_no_colon (hsimple.quiet rfl).no_colon] at hlen ⊢
  obtain ⟨fuel, rfl⟩ := Nat.exists_eq_add_one_of_ne_zero (Nat.ne_zero_of_lt hlen)
  rw [List.length_append] at hlen
  -- The token that follows is looked at and left in place, so the turns after this one
  -- start with it.
  obtain ⟨t, tail, hhead, ht⟩ := (Derives.colonItem hcolon hts).exists_head_of_items hws hnext rest
  obtain ⟨first, more, rule, rfl, hrule, hdone⟩ :=
    Rule.simple_read (Rule.block fuel .ENDDO false) tail
    (show us.length ≤ fuel by omega) hsimple ht
  rw [List.length_cons] at hlen
  obtain ⟨left, new, pairs, hreaches, hclear, htally⟩ :=
    (colonItem hcolon hitems) ws rest close fuel next hws hclose (by omega) hnext
  have hturn := Rule.block_statement hclose hrule hdone
  obtain ⟨-, hinner, hclear'⟩ := hsimple.simple_shape
  have hless : (t :: tail).length < (first :: (more ++ t :: tail)).length := by
    simp only [List.length_append, List.length_cons]
    omega
  refine ⟨left, s :: new, (s, t) :: pairs, ?_, by rw [Statement.clearAll_cons, hclear', hclear], ?_⟩
  · rw [missingColons_cons, List.append_assoc, hhead]
    rw [hhead] at hreaches
    exact .head hless hturn hreaches
  · rw [Statement.innerOfAll_cons, hinner]
    have hfirst : Tally (first :: more) (ws ++ next :: rest) [s] [(s, t)] := by
      rw [hhead]
      exact .simple hsimple
    exact hfirst.append htally

/-- A compound statement needs no colon behind it, whatever its own blocks miss. -/
theorem compoundItem (hcompound : Derives us (.compound s)) (hus : Tolerates us (.compound s))
    (hitems : Tolerates ts (.items ss)) : Tolerates (us ++ ts) (.items (s :: ss)) := by
  intro vs rest close fuel next hvs hclose hlen hnext
  obtain ⟨us', ts', rfl, hus', hts⟩ := hvs.of_append
  obtain ⟨fuel, rfl⟩ := Nat.exists_eq_add_one_of_ne_zero (Nat.ne_zero_of_lt hlen)
  rw [List.length_append] at hlen
  obtain ⟨t, ws, rule, new, pairs, rfl, hrule, hdone, hclear, htally⟩ :=
    hus us' (ts' ++ next :: rest) fuel hus' (by omega)
  rw [List.length_cons] at hlen
  obtain ⟨left, others, more, hreaches, hclearAll, htallyAll⟩ :=
    hitems ts' rest close fuel next hts hclose (by omega) hnext
  have hturn := Rule.block_statement hclose hrule hdone
  have hless : (ts' ++ next :: rest).length < (t :: (ws ++ (ts' ++ next :: rest))).length := by
    simp only [List.length_append, List.length_cons]
    omega
  refine ⟨left, new :: others, pairs ++ more, ?_,
    by rw [Statement.clearAll_cons, hclear, hclearAll], ?_⟩
  · rw [missingColons_append, List.append_assoc]
    exact .head hless hturn hreaches
  · rw [Statement.innerOfAll_cons]
    exact (htally.compound hcompound.isSimple_of_compound).append htallyAll

/-- A block is read up to the keyword that closes it. -/
theorem block {vs : List Token} {close : Keyword} {closing : Token} {fuel : Nat}
    (h : Tolerates us (.items ss)) (hvs : Thinned us vs) (rest : List Token)
    (hclose : close.isCloser = true) (hclosing : closing.isKeyword close = true)
    (hlen : vs.length < fuel) :
    ∃ new pairs, Rule.block fuel close false (vs ++ closing :: rest)
      = .done (.mk new (missingColons pairs)) rest ∧
      Statement.clearAll new = ss ∧ Tally vs (closing :: rest) (Statement.innerOfAll ss) pairs := by
  obtain ⟨left, new, pairs, hreaches, hclear, htally⟩ :=
    h vs rest close fuel closing hvs hclose hlen (arithmetic?_keyword hclosing)
  have hlen' : (vs ++ closing :: rest).length ≤ fuel + rest.length := by
    rw [List.length_append, List.length_cons]
    omega
  exact ⟨new, pairs, hreaches.done hlen' hclosing, hclear, htally⟩

/-- A block tolerates what its items tolerate. The induction over the items ends in front of
`ENDDO`, which is no operator. -/
theorem doBlock {opening closing : Token} (hopening : opening.isKeyword .DO = true)
    (hitems : Tolerates ts (.items ss)) (hclosing : closing.isKeyword .ENDDO = true) :
    Tolerates (opening :: ts ++ [closing]) (.doBlock (.mk ss [])) := by
  intro vs rest fuel hvs hlen
  have hpre : Frame [opening] := .cons_keyword hopening (by decide) .nil
  have hpost : Frame [closing] := .cons_keyword hclosing (by decide) .nil
  have hvs : Thinned ([opening] ++ (ts ++ [closing])) vs := hvs
  obtain ⟨ts', rfl, hts⟩ := hvs.of_framed hpre hpost
  simp only [List.length_append, List.length_cons, List.length_nil] at hlen
  obtain ⟨new, pairs, hread, hclear, htally⟩ :=
    hitems.block hts rest rfl hclosing (show ts'.length < fuel by omega)
  refine ⟨.mk new (missingColons pairs), pairs, ?_, rfl, congrArg (Block.mk · []) hclear,
    htally.framed hpre hpost⟩
  have hdo := Rule.doBlock_of_parts hopening hread
  simpa using hdo

end Items

/-! ### Compound statements -/

section Compound

variable {bs cs : List Token} {word closing : Token} {test : Condition} {body : Block}

/-- A loop with its test in front tolerates what its body tolerates. -/
theorem whileLoop (hword : word.isKeyword .WHEN = true) (htest : Derives cs (.condition test))
    (hbody : Tolerates bs (.doBlock body)) (hclosing : closing.isKeyword .ENDWHEN = true) :
    Tolerates (word :: cs ++ bs ++ [closing]) (.compound (.whileLoop test body)) := by
  intro vs rest fuel hvs hlen
  have hpre : Frame (word :: cs) := .cons_keyword hword (by decide) (htest.frame rfl)
  have hpost : Frame [closing] := .cons_keyword hclosing (by decide) .nil
  rw [List.append_assoc] at hvs
  obtain ⟨bs', rfl, hbs⟩ := hvs.of_framed hpre hpost
  simp only [List.length_append, List.length_cons, List.length_nil] at hlen
  obtain ⟨new, pairs, hread, hfound, hclear, htally⟩ :=
    hbody bs' (closing :: rest) fuel hbs (by omega)
  have htest' : Rule.condition fuel (cs ++ (bs' ++ closing :: rest)) = .done test _ :=
    Rule.condition_complete (by omega) htest
  refine ⟨word, cs ++ (bs' ++ [closing]), _, .whileLoop test new, pairs, rfl,
    by rw [Token.isKeyword_iff.1 hword]; rfl, ?_, by rw [Statement.clear_whileLoop, hclear],
    htally.framed hpre hpost⟩
  rw [← hfound]
  simpa using Rule.whileLoop_of_parts htest' hread hclosing

/-- A loop with its test behind tolerates what its body tolerates. -/
theorem untilLoop {middle : Token} (hword : word.isKeyword .REPEAT = true)
    (hbody : Tolerates bs (.doBlock body)) (hmiddle : middle.isKeyword .UNTIL = true)
    (htest : Derives cs (.condition test)) (hclosing : closing.isKeyword .ENDREPEAT = true) :
    Tolerates (word :: bs ++ middle :: cs ++ [closing]) (.compound (.untilLoop body test)) := by
  intro vs rest fuel hvs hlen
  have hpre : Frame [word] := .cons_keyword hword (by decide) .nil
  have hpost : Frame (middle :: cs ++ [closing]) :=
    (Frame.cons_keyword hmiddle (by decide) (htest.frame rfl)).append
      (.cons_keyword hclosing (by decide) .nil)
  have hvs : Thinned ([word] ++ (bs ++ (middle :: cs ++ [closing]))) vs := by
    rwa [List.append_assoc] at hvs
  obtain ⟨bs', rfl, hbs⟩ := hvs.of_framed hpre hpost
  simp only [List.length_append, List.length_cons, List.length_nil] at hlen
  obtain ⟨new, pairs, hread, hfound, hclear, htally⟩ :=
    hbody bs' (middle :: cs ++ [closing] ++ rest) fuel hbs (by omega)
  have htest' : Rule.condition fuel (cs ++ closing :: rest) = .done test _ :=
    Rule.condition_complete (by omega) htest
  refine ⟨word, bs' ++ (middle :: cs ++ [closing]), _, .untilLoop new test, pairs, rfl,
    by rw [Token.isKeyword_iff.1 hword]; rfl, ?_, by rw [Statement.clear_untilLoop, hclear],
    htally.framed hpre hpost⟩
  rw [List.append_assoc, List.cons_append] at hread
  rw [← hfound]
  simpa using Rule.untilLoop_of_parts hread hmiddle htest' hclosing

/-- A counting loop tolerates what its body tolerates. -/
theorem forLoop {vs as os ss : List Token} {first last size : Token} {counter : Variable}
    {start stop step : Binary64} (hword : word.isKeyword .FOR = true)
    (hvar : Derives vs (.var counter)) (hfirst : first.isKeyword .FROM = true)
    (hstart : Derives as (.number start)) (hlast : last.isKeyword .TO = true)
    (hstop : Derives os (.number stop)) (hsize : size.isKeyword .BY = true)
    (hstep : Derives ss (.number step)) (hzero : step.isZero = false)
    (hbody : Tolerates bs (.doBlock body)) (hclosing : closing.isKeyword .ENDFOR = true) :
    Tolerates (word :: vs ++ first :: as ++ last :: os ++ size :: ss ++ bs ++ [closing])
      (.compound (.forLoop counter start stop step body)) := by
  intro ws rest fuel hws hlen
  have hpre : Frame (word :: vs ++ first :: as ++ last :: os ++ size :: ss) :=
    (((Frame.cons_keyword hword (by decide) (hvar.frame rfl)).append
      (.cons_keyword hfirst (by decide) (hstart.frame rfl))).append
      (.cons_keyword hlast (by decide) (hstop.frame rfl))).append
      (.cons_keyword hsize (by decide) (hstep.frame rfl))
  have hpost : Frame [closing] := .cons_keyword hclosing (by decide) .nil
  rw [List.append_assoc] at hws
  obtain ⟨bs', rfl, hbs⟩ := hws.of_framed hpre hpost
  simp only [List.length_append, List.length_cons, List.length_nil] at hlen
  obtain ⟨new, pairs, hread, hfound, hclear, htally⟩ :=
    hbody bs' (closing :: rest) fuel hbs (by omega)
  refine ⟨word, vs ++ first :: as ++ last :: os ++ size :: ss ++ (bs' ++ [closing]), _,
    .forLoop counter start stop step new, pairs, rfl, by rw [Token.isKeyword_iff.1 hword]; rfl, ?_,
    by rw [Statement.clear_forLoop, hclear], htally.framed hpre hpost⟩
  rw [← hfound]
  simpa using Rule.forLoop_of_parts hvar hfirst hstart hlast hstop hsize hstep hzero hread hclosing

theorem noBranch : Tolerates [] (.branches []) := by
  intro vs rest fuel n closing hvs hlen _ hclosing
  cases hvs
  obtain ⟨n, rfl⟩ := Nat.exists_eq_add_one_of_ne_zero (Nat.ne_zero_of_lt hlen)
  exact ⟨[], [], Rule.otherBranches_end hclosing, rfl, .none fun _ ht => absurd ht List.not_mem_nil⟩

/-- The branch without a condition tolerates what its body tolerates. -/
theorem lastBranch (hword : word.isKeyword .OTHERWISE = true) (hbs : Derives bs (.doBlock body))
    (hbody : Tolerates bs (.doBlock body)) : Tolerates (word :: bs) (.branches [(none, body)]) := by
  intro vs rest fuel n closing hvs hlen hlen' hclosing
  have hpre : Frame [word] := .cons_keyword hword (by decide) .nil
  obtain ⟨bs', rfl, hbs'⟩ := hvs.of_cons (Token.isSymbol_eq_false_of_isKeyword hword)
  obtain ⟨n, rfl⟩ := Nat.exists_eq_add_one_of_ne_zero (Nat.ne_zero_of_lt hlen)
  rw [List.length_cons] at hlen'
  obtain ⟨new, pairs, hread, hfound, hclear, htally⟩ :=
    hbody bs' (closing :: rest) fuel hbs' (by omega)
  -- The rule looks for a second keyword, and finds the one that opens the block.
  obtain ⟨opening, ws, rfl, hopening⟩ := hbs.doBlock_cons
  obtain ⟨ws', rfl, -⟩ := hbs'.of_cons (Token.isSymbol_eq_false_of_isKeyword hopening)
  refine ⟨[(none, new)], pairs, ?_, by rw [Statement.clearBranches_cons, hclear]; rfl, ?_⟩
  · rw [← hfound]
    exact Rule.otherBranches_last hword hopening hread hclosing
  · rw [Statement.innerOfBranches_cons]
    have hall := htally.behind_frame hpre
    rwa [← List.append_nil body.inner] at hall

/-- A further branch tolerates what its body tolerates. -/
theorem nextBranch {os : List Token} {again : Token} {others : List (Option Condition × Block)}
    (hword : word.isKeyword .OTHERWISE = true) (hagain : again.isKeyword .IF = true)
    (htest : Derives cs (.condition test)) (hbody : Tolerates bs (.doBlock body))
    (hothers : Tolerates os (.branches others)) :
    Tolerates (word :: again :: cs ++ bs ++ os) (.branches ((some test, body) :: others)) := by
  intro vs rest fuel n closing hvs hlen hlen' hclosing
  have hpre : Frame (word :: again :: cs) :=
    .cons_keyword hword (by decide) (.cons_keyword hagain (by decide) (htest.frame rfl))
  rw [List.append_assoc] at hvs
  obtain ⟨mid, rfl, hmid⟩ := hvs.of_frame_append hpre
  obtain ⟨bs', os', rfl, hbs, hos⟩ := hmid.of_append
  obtain ⟨n, rfl⟩ := Nat.exists_eq_add_one_of_ne_zero (Nat.ne_zero_of_lt hlen)
  simp only [List.length_append, List.length_cons] at hlen hlen'
  obtain ⟨new, pairs, hread, hfound, hclear, htally⟩ :=
    hbody bs' (os' ++ closing :: rest) fuel hbs (by omega)
  obtain ⟨more, pairs', hread', hclear', htally'⟩ :=
    hothers os' rest fuel n closing hos (by omega) (by omega) hclosing
  have htest' : Rule.condition n (cs ++ (bs' ++ (os' ++ closing :: rest))) = .done test _ :=
    Rule.condition_complete (by omega) htest
  refine ⟨(some test, new) :: more, pairs ++ pairs', ?_,
    by rw [Statement.clearBranches_cons, hclear, hclear'], ?_⟩
  · rw [missingColons_append, ← hfound]
    simpa using Rule.otherBranches_next hword hagain htest' hread hread'
  · exact (htally.append htally').behind_frame hpre

/-- A choice tolerates what its bodies tolerate. -/
theorem choice {os : List Token} {others : List (Option Condition × Block)}
    (hword : word.isKeyword .IF = true) (htest : Derives cs (.condition test))
    (hbody : Tolerates bs (.doBlock body)) (hothers : Tolerates os (.branches others))
    (hclosing : closing.isKeyword .ENDIF = true) :
    Tolerates (word :: cs ++ bs ++ os ++ [closing])
      (.compound (.choice ((some test, body) :: others))) := by
  intro vs rest fuel hvs hlen
  have hpre : Frame (word :: cs) := .cons_keyword hword (by decide) (htest.frame rfl)
  have hpost : Frame [closing] := .cons_keyword hclosing (by decide) .nil
  have hvs : Thinned (word :: cs ++ (bs ++ os ++ [closing])) vs := by
    rwa [List.append_assoc, List.append_assoc, ← List.append_assoc bs] at hvs
  obtain ⟨mid, rfl, hmid⟩ := hvs.of_framed hpre hpost
  obtain ⟨bs', os', rfl, hbs, hos⟩ := hmid.of_append
  simp only [List.length_append, List.length_cons, List.length_nil] at hlen
  obtain ⟨new, pairs, hread, hfound, hclear, htally⟩ :=
    hbody bs' (os' ++ closing :: rest) fuel hbs (by omega)
  obtain ⟨more, pairs', hread', hclear', htally'⟩ :=
    hothers os' rest fuel fuel closing hos (by omega) (by omega) hclosing
  have htest' : Rule.condition fuel (cs ++ (bs' ++ (os' ++ closing :: rest))) = .done test _ :=
    Rule.condition_complete (by omega) htest
  refine ⟨word, cs ++ (bs' ++ os' ++ [closing]), _, .choice ((some test, new) :: more),
    pairs ++ pairs', rfl,
    by rw [Token.isKeyword_iff.1 hword]; rfl, ?_, ?_, (htally.append htally').framed hpre hpost⟩
  · rw [missingColons_append, ← hfound]
    simpa using Rule.choice_of_parts htest' hread hread'
  · rw [Statement.clear_choice, Statement.clearBranches_cons, hclear, hclear']

theorem noArm : Tolerates [] (.arms []) := by
  intro vs rest fuel n closing hvs hlen _ hclosing
  cases hvs
  obtain ⟨n, rfl⟩ := Nat.exists_eq_add_one_of_ne_zero (Nat.ne_zero_of_lt hlen)
  exact ⟨[], [], Rule.arms_end hclosing, rfl, .none fun _ ht => absurd ht List.not_mem_nil⟩

/-- An arm tolerates what its body tolerates. -/
theorem nextArm {ls as : List Token} {label : Literal} {arms : List (Literal × Block)}
    (hword : word.isKeyword .WHEN = true) (hlabel : Derives ls (.literal label))
    (hbody : Tolerates bs (.doBlock body)) (harms : Tolerates as (.arms arms)) :
    Tolerates (word :: ls ++ bs ++ as) (.arms ((label, body) :: arms)) := by
  intro vs rest fuel n closing hvs hlen hlen' hclosing
  have hpre : Frame (word :: ls) := .cons_keyword hword (by decide) (hlabel.frame rfl)
  rw [List.append_assoc] at hvs
  obtain ⟨mid, rfl, hmid⟩ := hvs.of_frame_append hpre
  obtain ⟨bs', as', rfl, hbs, has⟩ := hmid.of_append
  obtain ⟨n, rfl⟩ := Nat.exists_eq_add_one_of_ne_zero (Nat.ne_zero_of_lt hlen)
  simp only [List.length_append, List.length_cons] at hlen hlen'
  obtain ⟨new, pairs, hread, hfound, hclear, htally⟩ :=
    hbody bs' (as' ++ closing :: rest) fuel hbs (by omega)
  obtain ⟨more, pairs', hread', hclear', htally'⟩ :=
    harms as' rest fuel n closing has (by omega) (by omega) hclosing
  refine ⟨(label, new) :: more, pairs ++ pairs', ?_,
    by rw [Statement.clearArms_cons, hclear, hclear'], ?_⟩
  · rw [missingColons_append, ← hfound]
    simpa using Rule.arms_next hword hlabel hread hread'
  · exact (htally.append htally').behind_frame hpre

/-- A switch tolerates what its bodies tolerate. -/
theorem switch {vs as : List Token} {subject : Variable} {arms : List (Literal × Block)}
    (hword : word.isKeyword .SWITCH = true) (hvar : Derives vs (.var subject))
    (harms : Tolerates as (.arms arms)) (hclosing : closing.isKeyword .ENDSWITCH = true) :
    Tolerates (word :: vs ++ as ++ [closing]) (.compound (.switch subject arms)) := by
  intro ws rest fuel hws hlen
  have hpre : Frame (word :: vs) := .cons_keyword hword (by decide) (hvar.frame rfl)
  have hpost : Frame [closing] := .cons_keyword hclosing (by decide) .nil
  rw [List.append_assoc] at hws
  obtain ⟨as', rfl, has⟩ := hws.of_framed hpre hpost
  simp only [List.length_append, List.length_cons, List.length_nil] at hlen
  obtain ⟨new, pairs, hread, hclear, htally⟩ :=
    harms as' rest fuel fuel closing has (by omega) (by omega) hclosing
  refine ⟨word, vs ++ (as' ++ [closing]), _, .switch subject new, pairs, rfl,
    by rw [Token.isKeyword_iff.1 hword]; rfl, ?_, by rw [Statement.clear_switch, hclear],
    htally.framed hpre hpost⟩
  simpa using Rule.switch_of_parts hvar hread

end Compound

end Tolerates

/-- Every part of a derivation can do without its colons. -/
theorem Derives.tolerates {us : List Token} {φ : Phrase} (h : Derives us φ) : Tolerates us φ := by
  -- Terms, conditions and simple statements have no colons to lose, and nothing is claimed of them.
  induction h with
  | noItem => exact .noItem
  | colonItem hcolon _ ih => exact .colonItem hcolon ih
  | simpleItem hsimple hcolon hitems _ ih => exact .simpleItem hsimple hcolon hitems ih
  | compoundItem hcompound _ ih ih' => exact .compoundItem hcompound ih ih'
  | doBlock hopening _ hclosing ih => exact .doBlock hopening ih hclosing
  | whileLoop hword htest _ hclosing _ ih => exact .whileLoop hword htest ih hclosing
  | untilLoop hword _ hmiddle htest hclosing ih _ =>
    exact .untilLoop hword ih hmiddle htest hclosing
  | forLoop hword hvar hfirst hstart hlast hstop hsize hstep hzero _ hclosing _ _ _ _ ih =>
    exact .forLoop hword hvar hfirst hstart hlast hstop hsize hstep hzero ih hclosing
  | choice hword htest _ _ hclosing _ ih ih' => exact .choice hword htest ih ih' hclosing
  | noBranch => exact .noBranch
  | lastBranch hword hbody ih => exact .lastBranch hword hbody ih
  | nextBranch hword hagain htest _ _ _ ih ih' => exact .nextBranch hword hagain htest ih ih'
  | switch hword hvar _ hclosing _ ih => exact .switch hword hvar ih hclosing
  | noArm => exact .noArm
  | nextArm hword hlabel _ _ _ ih ih' => exact .nextArm hword hlabel ih ih'
  | _ => trivial

/-! ## Programs -/

namespace Reading

/-- Missing colons cost no statement. If colons are taken out of a program that is read without a
fault, the same program is read, and the faults are those of its outputs and assignments that are
not followed by a colon now. Each of them blames the token that follows. -/
theorem ofTokens_thinned {ts us : List Token} {p : Program}
    (hprogram : (ofTokens ts).program = some p) (hclean : (ofTokens ts).diagnostics = [])
    (hus : Thinned ts us) :
    ∃ q pairs, ofTokens us = ⟨some q, p.name, missingColons pairs, false⟩ ∧ q.clear = p ∧
      pairs.map Prod.fst = p.statements.filter Statement.isSimple ∧ Followed us pairs := by
  cases derives_of_diagnostics_eq_nil hprogram hclean with
  | @program ts opening title closing name ss hopening htitle hitems hclosing =>
    have hpre : Frame [opening, title] := .cons_keyword hopening (by decide)
      (.single (by simp [Token.isKeyword, htitle]) (by simp [Token.isSymbol, htitle]))
    have hpost : Frame [closing] := .cons_keyword hclosing (by decide) .nil
    -- The first two tokens and the last one are no colons, so the items in between are thinned.
    have hus : Thinned ([opening, title] ++ (ts ++ [closing])) us := hus
    obtain ⟨vs, rfl, hvs⟩ := hus.of_framed hpre hpost
    obtain ⟨new, pairs, hread, hclear, htally⟩ := hitems.tolerates.block hvs [] rfl hclosing
      (show vs.length < (vs ++ [closing]).length + 1 by simp only [List.length_append]; omega)
    have hheader : Rule.header ([opening, title] ++ (vs ++ [closing]))
        = .done name (vs ++ [closing]) :=
      Rule.header_eq_done.2 ⟨opening, title, hopening, htitle, rfl⟩
    have hfollowed :=
      (htally.framed hpre hpost).followed (.none fun _ ht => absurd ht List.not_mem_nil)
    rw [List.append_nil, List.append_nil] at hfollowed
    refine ⟨⟨name, .mk new (missingColons pairs)⟩, pairs, ?_, ?_, htally.statements, hfollowed⟩
    · have heq := (Course.finished hheader hread).eq
      rwa [trailing, List.append_nil] at heq
    · rw [← hclear]
      rfl

end Reading

/-- A program with a loop, in which every simple statement has its colon. -/
def doublingTokens : List Token :=
  Token.ofSource "PROG twice = A 1: WHEN < A 9 DO OUT[A]: = A 2 *: ENDDO ENDWHEN OUT[A]: ENDPROG"

/-- The same tokens without the colons, except the one inside the loop that
another statement follows. -/
def doublingTokensWithoutColons : List Token :=
  doublingTokens.filter fun t => !t.isSymbol .colon || t.position.column == 38

theorem doublingTokens_thinned :
    ∃ p, (Reading.ofTokens doublingTokens).program = some p ∧
      (Reading.ofTokens doublingTokens).diagnostics = [] ∧
      Thinned doublingTokens doublingTokensWithoutColons ∧
      ∃ q pairs, Reading.ofTokens doublingTokensWithoutColons
        = ⟨some q, p.name, missingColons pairs, false⟩ ∧ q.clear = p ∧
        pairs.map Prod.fst = p.statements.filter Statement.isSimple ∧
          Followed doublingTokensWithoutColons pairs := by
  have hread : (Reading.ofTokens doublingTokens).diagnostics = [] ∧
      (Reading.ofTokens doublingTokens).program.isSome = true := by
    decide +kernel
  obtain ⟨p, hp⟩ := Option.isSome_iff_exists.1 hread.2
  have hthinned : Thinned doublingTokens doublingTokensWithoutColons := by
    refine Thinned.of_filter (fun t ht => ?_) doublingTokens
    rw [Bool.or_eq_false_iff, Bool.not_eq_false'] at ht
    exact ht.1
  exact ⟨p, hp, hread.1, hthinned, Reading.ofTokens_thinned hp hread.1 hthinned⟩

end Zed
