import BinTools.MakefileParser
import Mathlib.Data.List.Infix

namespace BinTools.Makefile

/-!
# What a step changes

Steps write at the character that is read, and in front of the token of an
assignment that adds.  So the characters that are still to be read are those of
the text, and strings behind which a parse has gone on stay as they are.
-/

/-- What a step changes of the text, the token, the variable and the calls. -/
structure Effect (state later : State) (p : Nat) : Prop where
  text :
    later.text = state.text ∨ later.text = state.text.set p 0 ∨
      ∃ str,
        state.str = some str ∧ state.var.kind = some .add ∧
          later.text = (state.text.set p 0).set (str - 1) 0x20
  str :
    ∀ q, later.str = some q → state.str = some q ∨ p ≤ q ∧ q ≤ p + 2
  kind :
    later.var.kind = some .add →
      state.var.kind = some .add ∨ ∀ q, later.str = some q → p < q
  calls : state.calls <+: later.calls

theorem Effect.ofSame
    {state later : State} {p : Nat} (sameText : later.text = state.text)
    (sameVar : later.var = state.var) (sameCalls : later.calls = state.calls)
    (isStr :
      ∀ q, later.str = some q → state.str = some q ∨ p ≤ q ∧ q ≤ p + 2) :
    Effect state later p :=
  ⟨.inl sameText, isStr, fun isAdd => .inl (sameVar ▸ isAdd),
    sameCalls ▸ List.prefix_refl _⟩

theorem effect_doContextNone (state : State) (p : Nat) :
    Effect state (doContextNone state p) p := by
  unfold doContextNone
  dsimp only
  split_ifs
  all_goals try exact .ofSame rfl rfl rfl fun q isStr => .inl isStr
  refine .ofSame rfl rfl rfl fun q isStr => .inr ?_
  cases isStr
  exact ⟨Nat.le_refl _, Nat.le_add_right _ _⟩

theorem effect_doContextComment (state : State) (p : Nat) :
    Effect state (doContextComment state p) p := by
  unfold doContextComment
  split_ifs <;> exact .ofSame rfl rfl rfl fun q isStr => .inl isStr

theorem effect_doContextSep (state : State) (p : Nat) :
    Effect state (doContextSep state p) p := by
  unfold doContextSep
  dsimp only
  split_ifs
  · refine .ofSame rfl rfl rfl fun q isStr => .inr ?_
    cases isStr
    omega
  · refine .ofSame rfl rfl rfl fun q isStr => .inr ?_
    cases isStr
    omega
  · exact .ofSame rfl rfl rfl fun q isStr => .inl isStr

theorem effect_startVariable
    (state : State) (p : Nat) (kind : VarKind) {skip : Nat}
    (isSkip : 0 < skip ∧ skip ≤ 2) :
    Effect state (startVariable state p kind skip) p := by
  refine
    ⟨.inr (.inl rfl), fun q isStr => .inr ?_, fun _ => .inr ?_,
      List.prefix_refl _⟩
  · cases isStr
    omega
  · intro q isStr
    cases isStr
    omega

theorem effect_startRule
    {state later : State} {p : Nat}
    (isLater : startRule state p = some later) : Effect state later p := by
  obtain ⟨middle, isMiddle, rfl⟩ := Option.map_eq_some_iff.mp isLater
  obtain ⟨str, -, rfl⟩ := Option.map_eq_some_iff.mp isMiddle
  refine
    ⟨.inr (.inl ?_), fun q isStr => .inr ?_, fun isAdd => .inl ?_, ?_⟩
  · dsimp only
    split_ifs <;> rfl
  · cases isStr
    omega
  · dsimp only at isAdd
    split_ifs at isAdd <;> exact isAdd
  · dsimp only
    split_ifs <;> exact List.prefix_refl _

theorem effect_doContextReadNow
    {state later : State} {p : Nat}
    (isLater : doContextReadNow state p = some later) :
    Effect state later p := by
  unfold doContextReadNow at isLater
  dsimp only at isLater
  have isKept (context : Context) :
      Effect state { state with context := context } p :=
    .ofSame rfl rfl rfl fun q isStr => .inl isStr
  split at isLater
  · split at isLater
    · exact Option.some.inj isLater ▸ effect_startVariable _ _ _ (by decide)
    · exact Option.some.inj isLater ▸ isKept .none
  split at isLater
  · split at isLater
    · exact Option.some.inj isLater ▸ effect_startVariable _ _ _ (by decide)
    · exact effect_startRule isLater
  split at isLater
  · exact Option.some.inj isLater ▸ effect_startVariable _ _ _ (by decide)
  split at isLater
  · split at isLater
    · exact Option.some.inj isLater ▸ effect_startVariable _ _ _ (by decide)
    · exact Option.some.inj isLater ▸ isKept .readNow
  · exact Option.some.inj isLater ▸ isKept .readNow

theorem effect_endVariable
    {state later : State} {p : Nat} {r : Context}
    (isLater : endVariable state p r = some later) : Effect state later p := by
  obtain ⟨⟨text, value, colType⟩, isValue, isLater⟩ :=
    Option.bind_eq_some_iff.mp isLater
  obtain ⟨name, -, rfl⟩ := Option.map_eq_some_iff.mp isLater
  refine
    ⟨?_, fun _ isStr => (nomatch isStr), fun isAdd => .inl isAdd,
      List.prefix_append _ _⟩
  unfold variableValue at isValue
  split at isValue
  · obtain ⟨_, -, same⟩ := Option.map_eq_some_iff.mp isValue
    cases same
    exact .inr (.inl rfl)
  · rename_i isAdd
    obtain ⟨str, isStr, same⟩ := Option.map_eq_some_iff.mp isValue
    cases same
    exact .inr (.inr ⟨str, isStr, isAdd, rfl⟩)
  · cases isValue
    exact .inr (.inl rfl)

theorem effect_doContextVariable
    {state later : State} {p : Nat}
    (isLater : doContextVariable state p = some later) :
    Effect state later p := by
  unfold doContextVariable at isLater
  dsimp only at isLater
  split at isLater
  · exact effect_endVariable isLater
  split at isLater
  · exact effect_endVariable isLater
  · cases isLater
    exact .ofSame rfl rfl rfl fun q isStr => .inl isStr

theorem effect_doContextRuleCmd (state : State) (p : Nat) :
    Effect state (doContextRuleCmd state p) p := by
  have isEnd (ret : Context) : Effect state (endRuleCmd state p ret) p :=
    ⟨.inr (.inl rfl), fun _ isStr => (nomatch isStr), fun isAdd => .inl isAdd,
      List.prefix_refl _⟩
  unfold doContextRuleCmd
  dsimp only
  split
  · exact isEnd .ruleSep
  split
  · exact isEnd .comment
  · exact .ofSame rfl rfl rfl fun q isStr => .inl isStr

/-- The blanks in front of the end of a line are not looked at. -/
theorem skipBlanksBack_of_newline
    {text : List UInt8} {p : Nat} (isNewline : text.getD p 0 = 0x0a) :
    skipBlanksBack text p = p := by
  rw [List.getD_eq_getElem?_getD] at isNewline
  have isByte : text[p]? = some 0x0a := by
    cases isFound : text[p]? with
    | none =>
        rw [isFound] at isNewline
        exact absurd isNewline (by decide)
    | some c =>
        rw [isFound] at isNewline
        exact congrArg some isNewline
  rw [skipBlanksBack, List.take_add_one, isByte]
  simp

theorem effect_doContextRuleDeps
    {state later : State} {p : Nat}
    (isLater : doContextRuleDeps state p = some later) :
    Effect state later p := by
  unfold doContextRuleDeps at isLater
  split at isLater
  · rename_i isNewline
    obtain ⟨str, -, isLater⟩ := Option.bind_eq_some_iff.mp isLater
    obtain ⟨target, -, rfl⟩ := Option.map_eq_some_iff.mp isLater
    refine
      ⟨.inr (.inl ?_), fun _ isStr => (nomatch isStr),
        fun isAdd => .inl isAdd, List.prefix_append _ _⟩
    dsimp only
    rw [skipBlanksBack_of_newline isNewline]
  · cases isLater
    exact .ofSame rfl rfl rfl fun q isStr => .inl isStr

/-- What every step changes. -/
theorem effect_step
    {state later : State} {p : Nat} (isLater : step state p = some later) :
    Effect state later p := by
  unfold step at isLater
  split at isLater
  · exact Option.some.inj isLater ▸ effect_doContextNone state p
  · exact Option.some.inj isLater ▸ effect_doContextComment state p
  · exact effect_doContextReadNow isLater
  · exact effect_doContextRuleDeps isLater
  · exact Option.some.inj isLater ▸ effect_doContextSep state p
  · exact Option.some.inj isLater ▸ effect_doContextRuleCmd state p
  · exact effect_doContextVariable isLater

/-! ## Parts of a parse -/

theorem parse_add (state : State) (p first second : Nat) :
    parse state p (first + second) =
      (parse state p first).bind fun state =>
        parse state (p + first) second := by
  induction first generalizing state p with
  | zero => rw [Nat.zero_add]; rfl
  | succ first inductionHypothesis =>
      rw [Nat.succ_add, parse, parse, Option.bind_assoc]
      congr 1
      funext middle
      rw [inductionHypothesis, Nat.add_right_comm, Nat.add_assoc p]

/-- Calls are only added. -/
theorem calls_parse
    {state later : State} {p count : Nat}
    (isLater : parse state p count = some later) :
    state.calls <+: later.calls := by
  induction count generalizing state p with
  | zero =>
      cases isLater
      exact List.prefix_refl _
  | succ count inductionHypothesis =>
      obtain ⟨middle, isMiddle, isRest⟩ := Option.bind_eq_some_iff.mp isLater
      exact (effect_step isMiddle).calls.trans (inductionHypothesis isRest)

/-- What is still to be read is the text. -/
structure Ahead (text : List UInt8) (state : State) (p : Nat) : Prop where
  text : state.text.drop p = text.drop p
  str : ∀ q, state.str = some q → q ≤ p + 1

theorem drop_set_of_lt
    (text : List UInt8) {k p : Nat} (isLess : k < p) (c : UInt8) :
    (text.set k c).drop p = text.drop p := by
  rw [List.drop_set, if_pos isLess]

theorem Ahead.step
    {text : List UInt8} {state later : State} {p : Nat}
    (ahead : Ahead text state p) (isLater : step state p = some later) :
    Ahead text later (p + 1) := by
  have effect := effect_step isLater
  have isRest : state.text.drop (p + 1) = text.drop (p + 1) := by
    rw [← List.drop_drop, ← List.drop_drop, ahead.text]
  refine ⟨?_, fun q isStr => ?_⟩
  · rcases effect.text with same | isSet | ⟨str, isStr, -, isSet⟩
    · rw [same, isRest]
    · rw [isSet, drop_set_of_lt _ (Nat.lt_succ_self p), isRest]
    · have isNear := ahead.str str isStr
      rw [isSet, drop_set_of_lt _ (by omega),
        drop_set_of_lt _ (Nat.lt_succ_self p), isRest]
  · rcases effect.str q isStr with isOld | isNew
    · have isNear := ahead.str q isOld
      omega
    · omega

theorem Ahead.parse
    {text : List UInt8} {state later : State} {p count : Nat}
    (ahead : Ahead text state p) (isLater : parse state p count = some later) :
    Ahead text later (p + count) := by
  induction count generalizing state p with
  | zero =>
      cases isLater
      exact ahead
  | succ count inductionHypothesis =>
      obtain ⟨middle, isMiddle, isRest⟩ := Option.bind_eq_some_iff.mp isLater
      have isAhead := inductionHypothesis (ahead.step isMiddle) isRest
      rwa [Nat.add_assoc, Nat.add_comm 1] at isAhead

theorem ahead_init (text : List UInt8) : Ahead text (State.init text) 0 :=
  ⟨rfl, fun _ isStr => (nomatch isStr)⟩

/-- What is in front of a position stays as it is. -/
structure Settled (front : List UInt8) (state : State) (p : Nat) : Prop where
  text : front <+: state.text
  str : ∀ q, state.str = some q → front.length ≤ q
  position : front.length ≤ p
  add : state.var.kind = some .add → front.length < p
  addStr :
    state.var.kind = some .add →
      ∀ q, state.str = some q → front.length < q

theorem prefix_set
    {front text : List UInt8} (isPrefix : front <+: text) {k : Nat}
    (isBehind : front.length ≤ k) (c : UInt8) : front <+: text.set k c := by
  obtain ⟨rest, rfl⟩ := isPrefix
  rw [List.set_append_right _ _ isBehind]
  exact List.prefix_append _ _

theorem Settled.step
    {front : List UInt8} {state later : State} {p : Nat}
    (settled : Settled front state p) (isLater : step state p = some later) :
    Settled front later (p + 1) := by
  have effect := effect_step isLater
  have isPosition := settled.position
  refine ⟨?_, fun q isStr => ?_, by omega, fun _ => by omega, ?_⟩
  · rcases effect.text with same | isSet | ⟨str, isStr, isAdd, isSet⟩
    · rw [same]
      exact settled.text
    · rw [isSet]
      exact prefix_set settled.text isPosition 0
    · have isLess := settled.addStr isAdd str isStr
      rw [isSet]
      exact
        prefix_set (prefix_set settled.text isPosition 0) (by omega) 0x20
  · rcases effect.str q isStr with isOld | isNew
    · exact settled.str q isOld
    · omega
  · intro isAdd q isStr
    rcases effect.kind isAdd with wasAdd | isLess
    · rcases effect.str q isStr with isOld | isNew
      · exact settled.addStr wasAdd q isOld
      · have isLess := settled.add wasAdd
        omega
    · have isNear := isLess q isStr
      omega

theorem Settled.parse
    {front : List UInt8} {state later : State} {p count : Nat}
    (settled : Settled front state p)
    (isLater : parse state p count = some later) :
    Settled front later (p + count) := by
  induction count generalizing state p with
  | zero =>
      cases isLater
      exact settled
  | succ count inductionHypothesis =>
      obtain ⟨middle, isMiddle, isRest⟩ := Option.bind_eq_some_iff.mp isLater
      have isSettled := inductionHypothesis (settled.step isMiddle) isRest
      rwa [Nat.add_assoc, Nat.add_comm 1] at isSettled

end BinTools.Makefile
