import LineCalc.Session

/-! Which error an expression reports. Its nodes stand in a list, operands before the operation
and the left one first. Evaluation stops at the first node of this list that fails, with its error,
and otherwise computes the operations from the leaves up. -/

namespace LineCalc

def BinaryOp.compute : BinaryOp → Number → Number → Number
  | .add, x, y => x + y
  | .sub, x, y => x - y
  | .mul, x, y => x * y
  | .div, x, y => x / y

def BinaryOp.DividesByZero (op : BinaryOp) (y : Number) : Prop := op = .div ∧ y == 0

namespace Expr

def postorder : Expr → List Expr
  | num x => [num x]
  | var name => [var name]
  | unary op e => e.postorder ++ [unary op e]
  | binary op l r => l.postorder ++ (r.postorder ++ [binary op l r])

/-- The value of a node, computed from the leaves up. A negation is not checked, nor is a variable
that has a value. -/
inductive Yields (s : Store) : Expr → Number → Prop
  | num {x} : x.isFinite → Yields s (num x) x
  | var {name x} : s.get? name = some x → Yields s (var name) x
  | neg {e x} : Yields s e x → Yields s (unary .neg e) (-x)
  | binary {op l r x y} : Yields s l x → Yields s r y → ¬ op.DividesByZero y →
    (op.compute x y).isFinite → Yields s (binary op l r) (op.compute x y)

/-- The node itself fails: its operands, if it has any, have values. -/
inductive Fails (s : Store) : Expr → EvalError → Prop
  | num {x} : ¬ x.isFinite → Fails s (num x) .numericOverflow
  | var {name} : s.get? name = none → Fails s (var name) (.undefinedVariable name)
  | zeroDivisor {op l r x y} : Yields s l x → Yields s r y → op.DividesByZero y →
    Fails s (binary op l r) .divisionByZero
  | overflow {op l r x y} : Yields s l x → Yields s r y → ¬ op.DividesByZero y →
    ¬ (op.compute x y).isFinite → Fails s (binary op l r) .numericOverflow

def FirstFault (s : Store) (nodes : List Expr) (c : EvalError) : Prop :=
  ∃ before node after, nodes = before ++ node :: after ∧
    (∀ n ∈ before, ∃ x, n.Yields s x) ∧ node.Fails s c

section
variable {s : Store} {e l r : Expr} {op : BinaryOp} {x y : Number} {c : EvalError}
  {nodes more : List Expr}

theorem mem_postorder (e : Expr) : e ∈ e.postorder := by
  cases e <;> simp [postorder]

theorem firstFault_singleton : FirstFault s [e] c ↔ e.Fails s c := by
  constructor
  · rintro ⟨before, node, after, heq, -, hfails⟩
    obtain ⟨rfl, rfl, rfl⟩ : before = [] ∧ node = e ∧ after = [] := by
      cases before with
      | nil => simpa using heq.symm
      | cons n before => simp at heq
    exact hfails
  · intro hfails
    exact ⟨[], e, [], rfl, by simp, hfails⟩

theorem firstFault_append : FirstFault s (nodes ++ more) c ↔
    FirstFault s nodes c ∨ (∀ n ∈ nodes, ∃ x, n.Yields s x) ∧ FirstFault s more c := by
  constructor
  · rintro ⟨before, node, after, heq, hbefore, hfails⟩
    rcases List.append_eq_append_iff.mp heq with ⟨mid, rfl, hmore⟩ | ⟨mid, rfl, hmid⟩
    · have hnodes := fun n hn => hbefore n (List.mem_append_left _ hn)
      have hrest := fun n hn => hbefore n (List.mem_append_right _ hn)
      exact .inr ⟨hnodes, mid, node, after, hmore, hrest, hfails⟩
    · cases mid with
      | nil =>
        rw [List.append_nil]
        exact .inr ⟨hbefore, [], node, after, hmid.symm, by simp, hfails⟩
      | cons n mid =>
        obtain ⟨rfl, -⟩ := List.cons.inj hmid
        exact .inl ⟨before, node, mid, rfl, hbefore, hfails⟩
  · rintro (⟨before, node, after, rfl, hbefore, hfails⟩ | ⟨hnodes, before, node, after, rfl,
      hbefore, hfails⟩)
    · exact ⟨before, node, after ++ more, by simp, hbefore, hfails⟩
    · refine ⟨nodes ++ before, node, after, by simp, fun n hn => ?_, hfails⟩
      exact (List.mem_append.mp hn).elim (hnodes n) (hbefore n)

theorem yields_iff_postorder : (∃ x, e.Yields s x) ↔ ∀ n ∈ e.postorder, ∃ x, n.Yields s x := by
  constructor
  · rintro ⟨x, hx⟩
    induction hx with
    | num h => simpa [postorder] using ⟨_, .num h⟩
    | var h => simpa [postorder] using ⟨_, .var h⟩
    | neg h ih =>
      intro n hn
      rcases List.mem_append.mp hn with hn | hn
      · exact ih n hn
      · rw [List.mem_singleton.mp hn]
        exact ⟨_, .neg h⟩
    | binary hl hr hdiv hfinite ihl ihr =>
      intro n hn
      rcases List.mem_append.mp hn with hn | hn
      · exact ihl n hn
      rcases List.mem_append.mp hn with hn | hn
      · exact ihr n hn
      · rw [List.mem_singleton.mp hn]
        exact ⟨_, .binary hl hr hdiv hfinite⟩
  · intro h
    exact h e e.mem_postorder

theorem apply_checked (op : BinaryOp) (x y : Number) :
    (op.DividesByZero y ∧ op.apply x y >>= Number.checked = .error .divisionByZero) ∨
      (¬ op.DividesByZero y ∧ op.apply x y >>= Number.checked = (op.compute x y).checked) := by
  cases op with
  | div =>
    have hdiv : BinaryOp.div.DividesByZero y ↔ y == 0 := by simp [BinaryOp.DividesByZero]
    rw [hdiv]
    change _ ∧ (if y == 0 then _ else _) >>= _ = _ ∨ _ ∧ (if y == 0 then _ else _) >>= _ = _
    split
    · exact .inl ⟨‹_›, rfl⟩
    · exact .inr ⟨‹_›, rfl⟩
  | add => exact .inr ⟨by simp [BinaryOp.DividesByZero], rfl⟩
  | sub => exact .inr ⟨by simp [BinaryOp.DividesByZero], rfl⟩
  | mul => exact .inr ⟨by simp [BinaryOp.DividesByZero], rfl⟩

theorem eval_binary (hl : l.eval s = .ok x) (hr : r.eval s = .ok y) :
    (binary op l r).eval s = op.apply x y >>= Number.checked := by
  rw [eval, hl, hr]
  rfl

theorem eval_of_yields (h : e.Yields s x) : e.eval s = .ok x := by
  induction h with
  | num hfinite => rw [eval, Number.checked, if_pos hfinite]
  | var hget => rw [eval, Store.read, hget]
  | neg _ ih =>
    rw [eval, ih]
    rfl
  | @binary op l r x y _ _ hdiv hfinite ihl ihr =>
    rw [eval_binary ihl ihr]
    rcases apply_checked op x y with ⟨hzero, -⟩ | ⟨-, hresult⟩
    · exact absurd hzero hdiv
    · rw [hresult, Number.checked, if_pos hfinite]

theorem eval_of_fails (h : e.Fails s c) : e.eval s = .error c := by
  cases h with
  | num hfinite => rw [eval, Number.checked, if_neg hfinite]
  | var hget => rw [eval, Store.read, hget]
  | @zeroDivisor op l r x y hl hr hdiv =>
    rw [eval_binary (eval_of_yields hl) (eval_of_yields hr)]
    rcases apply_checked op x y with ⟨-, hresult⟩ | ⟨hnonzero, -⟩
    · exact hresult
    · exact absurd hdiv hnonzero
  | @overflow op l r x y hl hr hdiv hfinite =>
    rw [eval_binary (eval_of_yields hl) (eval_of_yields hr)]
    rcases apply_checked op x y with ⟨hzero, -⟩ | ⟨-, hresult⟩
    · exact absurd hzero hdiv
    · rw [hresult, Number.checked, if_neg hfinite]

theorem binary_yields_or_fails (hl : l.Yields s x) (hr : r.Yields s y) (op : BinaryOp) :
    (∃ z, (binary op l r).Yields s z) ∨ ∃ c, (binary op l r).Fails s c := by
  by_cases hdiv : op.DividesByZero y
  · exact .inr ⟨_, .zeroDivisor hl hr hdiv⟩
  · by_cases hfinite : (op.compute x y).isFinite
    · exact .inl ⟨_, .binary hl hr hdiv hfinite⟩
    · exact .inr ⟨_, .overflow hl hr hdiv hfinite⟩

theorem yields_or_firstFault (s : Store) (e : Expr) :
    (∃ x, e.Yields s x) ∨ ∃ c, FirstFault s e.postorder c := by
  induction e with
  | num x =>
    by_cases hfinite : x.isFinite
    · exact .inl ⟨x, .num hfinite⟩
    · exact .inr ⟨_, firstFault_singleton.mpr (.num hfinite)⟩
  | var name =>
    cases hget : s.get? name with
    | some x => exact .inl ⟨x, .var hget⟩
    | none => exact .inr ⟨_, firstFault_singleton.mpr (.var hget)⟩
  | unary op e ih =>
    cases op
    rcases ih with ⟨x, hx⟩ | ⟨c, hc⟩
    · exact .inl ⟨-x, .neg hx⟩
    · exact .inr ⟨c, firstFault_append.mpr (.inl hc)⟩
  | binary op l r ihl ihr =>
    rcases ihl with ⟨x, hl⟩ | ⟨c, hc⟩
    · have hleft := yields_iff_postorder.mp ⟨x, hl⟩
      rcases ihr with ⟨y, hr⟩ | ⟨c, hc⟩
      · have hright := yields_iff_postorder.mp ⟨y, hr⟩
        refine (binary_yields_or_fails hl hr op).imp_right ?_
        rintro ⟨c, hc⟩
        have hnode := firstFault_singleton.mpr hc
        have hlast := firstFault_append.mpr (.inr ⟨hright, hnode⟩)
        exact ⟨c, firstFault_append.mpr (.inr ⟨hleft, hlast⟩)⟩
      · exact .inr ⟨c, firstFault_append.mpr (.inr ⟨hleft, firstFault_append.mpr (.inl hc)⟩)⟩
    · exact .inr ⟨c, firstFault_append.mpr (.inl hc)⟩

theorem eval_of_firstFault (h : FirstFault s e.postorder c) : e.eval s = .error c := by
  induction e with
  | num x => exact eval_of_fails (firstFault_singleton.mp h)
  | var name => exact eval_of_fails (firstFault_singleton.mp h)
  | unary op e ih =>
    cases op
    rcases firstFault_append.mp h with h | ⟨-, h⟩
    · rw [eval, ih h]
      rfl
    · exact eval_of_fails (firstFault_singleton.mp h)
  | binary op l r ihl ihr =>
    rcases firstFault_append.mp h with h | ⟨hleft, h⟩
    · rw [eval, ihl h]
      rfl
    rcases firstFault_append.mp h with h | ⟨-, h⟩
    · obtain ⟨x, hx⟩ := yields_iff_postorder.mpr hleft
      rw [eval, eval_of_yields hx, ihr h]
      rfl
    · exact eval_of_fails (firstFault_singleton.mp h)

theorem eval_eq_ok_iff : e.eval s = .ok x ↔ e.Yields s x := by
  refine ⟨fun h => ?_, eval_of_yields⟩
  rcases yields_or_firstFault s e with ⟨y, hy⟩ | ⟨c, hc⟩
  · have hvalue := (eval_of_yields hy).symm.trans h
    rwa [← Except.ok.inj hvalue]
  · cases (eval_of_firstFault hc).symm.trans h

theorem eval_eq_error_iff : e.eval s = .error c ↔ FirstFault s e.postorder c := by
  refine ⟨fun h => ?_, eval_of_firstFault⟩
  rcases yields_or_firstFault s e with ⟨y, hy⟩ | ⟨c', hc'⟩
  · cases (eval_of_yields hy).symm.trans h
  · have herror := (eval_of_firstFault hc').symm.trans h
    rwa [← Except.error.inj herror]

end

/-- An expression without a value reports the error of the first node that fails, in the order in
which the nodes stand, and fails only for such a node. Otherwise its value is computed from the
leaves up. So the left operand is heard before the right one, and a divisor of zero is found once
both operands have values, whatever the quotient would be. -/
theorem eval_reports_first_fault (e : Expr) (s : Store) :
    (∀ c, e.eval s = .error c ↔ ∃ before node after, e.postorder = before ++ node :: after ∧
      (∀ n ∈ before, ∃ x, n.Yields s x) ∧ node.Fails s c) ∧
    (∀ x, e.eval s = .ok x ↔ e.Yields s x) ∧
    ((¬ ∃ before node after c, e.postorder = before ++ node :: after ∧
      (∀ n ∈ before, ∃ x, n.Yields s x) ∧ node.Fails s c) →
      ∃ x, e.Yields s x ∧ e.eval s = .ok x) ∧
    ∀ op l r, e = .binary op l r →
      (∀ c, l.eval s = .error c → e.eval s = .error c) ∧
      ∀ x, l.eval s = .ok x →
        (∀ c, r.eval s = .error c → e.eval s = .error c) ∧
        ∀ y, r.eval s = .ok y → op.DividesByZero y → e.eval s = .error .divisionByZero := by
  refine ⟨fun c => eval_eq_error_iff, fun x => eval_eq_ok_iff, fun hnone => ?_, ?_⟩
  · rcases yields_or_firstFault s e with ⟨x, hx⟩ | ⟨c, before, node, after, hfault⟩
    · exact ⟨x, hx, eval_of_yields hx⟩
    · exact absurd ⟨before, node, after, c, hfault⟩ hnone
  · rintro op l r rfl
    refine ⟨fun c hl => ?_, fun x hl => ⟨fun c hr => ?_, fun y hr hzero => ?_⟩⟩
    · rw [eval_eq_error_iff] at hl ⊢
      exact firstFault_append.mpr (.inl hl)
    · rw [eval_eq_error_iff] at hr ⊢
      have hleft := yields_iff_postorder.mp ⟨x, eval_eq_ok_iff.mp hl⟩
      exact firstFault_append.mpr (.inr ⟨hleft, firstFault_append.mpr (.inl hr)⟩)
    · exact eval_of_fails (.zeroDivisor (eval_eq_ok_iff.mp hl) (eval_eq_ok_iff.mp hr) hzero)

/-- Both operands of the sum fail, the left one because its divisor is a negative zero. -/
theorem eval_reports_first_fault_sum :
    let s := Store.empty.set "x" 2
    let zero := unary .neg (num 0)
    let quotient := binary .div (var "x") zero
    let e := binary .add quotient (var "y")
    (e.eval s = .error .divisionByZero ∧
      ∃ before node after, e.postorder = before ++ node :: after ∧
        (∀ n ∈ before, ∃ x, n.Yields s x) ∧ node.Fails s .divisionByZero) ∧
    ((var "x").eval s = .ok 2 ∧ zero.eval s = .ok (-0) ∧ BinaryOp.div.DividesByZero (-0) ∧
      quotient.eval s = .error .divisionByZero) ∧
    (¬ ∃ before node after c, zero.postorder = before ++ node :: after ∧
      (∀ n ∈ before, ∃ x, n.Yields s x) ∧ node.Fails s c) ∧
    ∃ x, zero.Yields s x ∧ zero.eval s = .ok x := by
  intro s zero quotient e
  have hx : (var "x").eval s = .ok 2 := by decide +kernel
  have hzero : zero.eval s = .ok (-0) := by decide +kernel
  have hdivides : BinaryOp.div.DividesByZero (-0) := ⟨rfl, by decide +kernel⟩
  have hquotient : quotient.eval s = .error .divisionByZero :=
    (((eval_reports_first_fault quotient s).2.2.2 _ _ _ rfl).2 _ hx).2 _ hzero hdivides
  have he : e.eval s = .error .divisionByZero :=
    ((eval_reports_first_fault e s).2.2.2 _ _ _ rfl).1 _ hquotient
  have hnone : ¬ ∃ before node after c, zero.postorder = before ++ node :: after ∧
      (∀ n ∈ before, ∃ x, n.Yields s x) ∧ node.Fails s c := by
    rintro ⟨before, node, after, c, hfault⟩
    have herror := ((eval_reports_first_fault zero s).1 c).mpr ⟨before, node, after, hfault⟩
    cases hzero.symm.trans herror
  exact ⟨⟨he, ((eval_reports_first_fault e s).1 _).mp he⟩, ⟨hx, hzero, hdivides, hquotient⟩, hnone,
    (eval_reports_first_fault zero s).2.2.1 hnone⟩

end Expr
end LineCalc
