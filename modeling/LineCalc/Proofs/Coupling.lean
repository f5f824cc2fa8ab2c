import LineCalc.Proofs.Ahead

/-! Two parsers that go through a statement in step. A coupling says how the parsers, the tokens
in front of them and their errors correspond. When single steps keep the correspondence, reading a
whole statement keeps it too. -/

namespace LineCalc.Parser
variable {α β : Type}

inductive Agree (S : Parser → Parser → Prop) (V : α → α → Prop) (E : Error → Error → Prop) :
    Except Error α × Parser → Except Error α × Parser → Prop
  | ok {a b p q} : V a b → S p q → Agree S V E (.ok a, p) (.ok b, q)
  | error {e e' p q} : E e e' → Agree S V E (.error e, p) (.error e', q)

theorem Agree.bind {S : Parser → Parser → Prop} {V : α → α → Prop} {W : β → β → Prop}
    {E : Error → Error → Prop} {p q : Parser} {x y : Parse α} {f g : α → Parse β}
    (h : Agree S V E (p.run x) (q.run y))
    (hf : ∀ a b p' q', V a b → S p' q' → p.run x = (.ok a, p') →
      Agree S W E (p'.run (f a)) (q'.run (g b))) :
    Agree S W E (p.run (x >>= f)) (q.run (y >>= g)) := by
  generalize hx : p.run x = r at h
  generalize hy : q.run y = r' at h
  cases h with
  | ok hv hs =>
    rw [run_bind_of_ok hx, run_bind_of_ok hy]
    exact hf _ _ _ _ hv hs hx
  | error he =>
    rw [run_bind_of_error hx, run_bind_of_error hy]
    exact .error he

/-- A correspondence that every step keeps, up to the token that ends the statement. The two ends
need not be of the same kind. -/
structure Coupling where
  state : Parser → Parser → Prop
  token : Token → Token → Prop
  error : Error → Error → Prop
  kind {t u} : token t u → t.kind = u.kind ∨ t.kind.isTerminator ∧ u.kind.isTerminator
  unexpected {t u} : token t u → ∀ expected, error (t.unexpected expected) (u.unexpected expected)
  agree_peek {p q} : state p q → Agree state token error (p.run peek) (q.run peek)
  agree_peekSecond {p q t} : state p q → p.front = .ok t → ¬ t.kind.isTerminator →
    Agree state token error (p.run peekSecond) (q.run peekSecond)
  agree_advance {p q t} : state p q → p.front = .ok t → ¬ t.kind.isTerminator →
    Agree state token error (p.run advance) (q.run advance)

namespace Coupling
variable {C : Coupling} {t u : Token} {ts : List Token} {x y : Parse α}

theorem kind_cases (h : C.token t u) :
    t.kind.isTerminator ∧ u.kind.isTerminator ∨ ¬ t.kind.isTerminator ∧ u.kind = t.kind := by
  by_cases ht : t.kind.isTerminator
  · rcases C.kind h with hk | hterm
    · exact .inl ⟨ht, hk ▸ ht⟩
    · exact .inl hterm
  · rcases C.kind h with hk | ⟨hterm, -⟩
    · exact .inr ⟨ht, hk.symm⟩
    · exact absurd hterm ht

theorem front_cases {p q : Parser} (h : C.state p q) :
    (∃ t u, p.front = .ok t ∧ q.front = .ok u ∧ C.token t u) ∨
      ∃ e e', p.front = .error e ∧ q.front = .error e' ∧ C.error e e' := by
  have hagree := C.agree_peek h
  have hp := run_peek_fst p
  have hq := run_peek_fst q
  generalize p.run Parser.peek = r at hagree hp
  generalize q.run Parser.peek = r' at hagree hq
  cases hagree with
  | ok htoken _ => exact .inl ⟨_, _, hp.symm, hq.symm, htoken⟩
  | error herror => exact .inr ⟨_, _, hp.symm, hq.symm, herror⟩

def Coupled (C : Coupling) (ts : List Token) (x y : Parse α) : Prop :=
  ∀ ⦃p q : Parser⦄, C.state p q → ts.map .ok <+: p.pending →
    Agree C.state Eq C.error (p.run x) (q.run y)

theorem Coupled.weaken (h : C.Coupled [] x y) : C.Coupled ts x y :=
  fun _ _ hpq _ => h hpq (List.nil_prefix ..)

theorem coupled_pure (a : α) : C.Coupled ts (pure a) (pure a) :=
  fun _ _ hpq _ => .ok rfl hpq

theorem coupled_unexpected (h : C.token t u) (expected : String) :
    C.Coupled ts (throw (t.unexpected expected) : Parse α) (throw (u.unexpected expected)) :=
  fun _ _ _ _ => .error (C.unexpected h expected)

theorem Coupled.bind {f g : α → Parse β} (hx : C.Coupled ts x y)
    (hf : ∀ a, C.Coupled [] (f a) (g a)) : C.Coupled ts (x >>= f) (y >>= g) := by
  intro p q hpq hts
  refine (hx hpq hts).bind fun a b p' q' hab hpq' _ => ?_
  subst hab
  exact hf a hpq' (List.nil_prefix ..)

theorem coupled_peek_bind {f g : Token → Parse α}
    (hf : ∀ t u, C.token t u → C.Coupled [t] (f t) (g u)) :
    C.Coupled ts (peek >>= f) (peek >>= g) := by
  intro p q hpq _
  refine (C.agree_peek hpq).bind fun t u p' q' htu hpq' hrun => hf t u htu hpq' ?_
  exact ⟨_, (pending_of_run_peek hrun).symm⟩

theorem coupled_peekSecond_bind {f g : Token → Parse α} (ht : ¬ t.kind.isTerminator)
    (hf : ∀ t' u', C.token t' u' → C.Coupled [t, t'] (f t') (g u')) :
    C.Coupled [t] (peekSecond >>= f) (peekSecond >>= g) := by
  rintro p q hpq ⟨rest, hp⟩
  have hfront : p.front = .ok t := front_of_pending hp.symm
  refine (C.agree_peekSecond hpq hfront ht).bind fun t' u' p' q' htu hpq' hrun => hf t' u' htu hpq' ?_
  exact ⟨_, (pending_of_run_peekSecond hp.symm hrun).symm⟩

theorem coupled_advance_bind {f g : Token → Parse α} (ht : ¬ t.kind.isTerminator)
    (hf : ∀ u, C.token t u → C.Coupled ts (f t) (g u)) :
    C.Coupled (t :: ts) (advance >>= f) (advance >>= g) := by
  rintro p q hpq ⟨rest, hp⟩
  have hfront : p.front = .ok t := front_of_pending hp.symm
  refine (C.agree_advance hpq hfront ht).bind fun t' u p' q' htu hpq' hrun => ?_
  obtain ⟨heq, hp'⟩ := pending_of_run_advance hrun
  rw [hfront] at heq
  cases heq
  refine hf u htu hpq' ⟨rest, ?_⟩
  rw [hp', ← hp]
  rfl

theorem coupled_discard_advance_bind {f g : Unit → Parse α} (ht : ¬ t.kind.isTerminator)
    (hf : C.Coupled ts (f ()) (g ())) :
    C.Coupled (t :: ts) (discard advance >>= f) (discard advance >>= g) := by
  intro p q hpq hts
  rw [run_discard_bind, run_discard_bind]
  exact coupled_advance_bind ht (fun _ _ => hf) hpq hts

/-- Taking a token of which nothing is known. At the end of the statement both steps must fail. -/
theorem coupled_advance_bind_of_terminator {f g : Token → Parse α}
    (hf : ∀ t u, C.token t u → ¬ t.kind.isTerminator → C.Coupled [] (f t) (g u))
    (hend : ∀ t u, C.token t u → t.kind.isTerminator → ∃ expected,
      f t = throw (t.unexpected expected) ∧ g u = throw (u.unexpected expected)) :
    C.Coupled [] (advance >>= f) (advance >>= g) := by
  intro p q hpq _
  obtain ⟨p', hp', -⟩ := p.run_advance
  obtain ⟨q', hq', -⟩ := q.run_advance
  rcases C.front_cases hpq with ⟨t, u, hp, hq, htu⟩ | ⟨e, e', hp, hq, he⟩
  · by_cases ht : t.kind.isTerminator
    · obtain ⟨expected, hft, hgu⟩ := hend t u htu ht
      rw [hp] at hp'
      rw [hq] at hq'
      rw [run_bind_of_ok hp', run_bind_of_ok hq', hft, hgu]
      exact .error (C.unexpected htu expected)
    · refine (C.agree_advance hpq hp ht).bind fun t' u' p' q' htu' hpq' hrun => ?_
      obtain ⟨heq, -⟩ := pending_of_run_advance hrun
      rw [hp] at heq
      cases heq
      exact hf t u' htu' ht hpq' (List.nil_prefix ..)
  · rw [hp] at hp'
    rw [hq] at hq'
    rw [run_bind_of_error hp', run_bind_of_error hq']
    exact .error he

section
variable {op? : Token.Kind → Option BinaryOp} {operand : Parse Tree}

theorem coupled_operations (hop : ∀ k, k.isTerminator → op? k = none)
    (hoperand : C.Coupled [] operand operand) (left : Expr) (height : Nat) :
    C.Coupled [] (operations op? operand left height) (operations op? operand left height) := by
  -- the tree on the left grows in every round, up to the limit
  induction hn : maxDepth - height using Nat.strongRecOn generalizing left height with
  | _ n ih =>
    rw [operations]
    refine coupled_peek_bind fun t u htu => ?_
    rcases C.kind_cases htu with ⟨ht, hu⟩ | ⟨ht, hk⟩
    · rw [hop _ ht, hop _ hu]
      exact coupled_pure _
    · rw [hk]
      cases op? t.kind with
      | none => exact coupled_pure _
      | some op =>
        refine coupled_advance_bind ht fun u' htu' => hoperand.bind fun right => ?_
        dsimp only
        split
        · exact coupled_unexpected htu' _
        · exact ih _ (by omega) _ _ rfl

theorem coupled_chain (hop : ∀ k, k.isTerminator → op? k = none)
    (hoperand : C.Coupled [] operand operand) :
    C.Coupled [] (chain op? operand) (chain op? operand) :=
  hoperand.bind fun tree => coupled_operations hop hoperand tree.1 tree.2

end

theorem coupled_sum {factor : Parse Tree} (h : C.Coupled [] factor factor) :
    C.Coupled [] (sum factor) (sum factor) := by
  have hadditive : ∀ k, k.isTerminator → additive? k = none := by
    intro k hk
    cases k <;> first | rfl | cases hk
  have hmultiplicative : ∀ k, k.isTerminator → multiplicative? k = none := by
    intro k hk
    cases k <;> first | rfl | cases hk
  exact coupled_chain hadditive (coupled_chain hmultiplicative h)

theorem coupled_closeParen : C.Coupled [] closeParen closeParen := by
  unfold closeParen
  refine coupled_peek_bind fun t u htu => ?_
  rcases C.kind_cases htu with ⟨ht, hu⟩ | ⟨ht, hk⟩
  · rw [if_neg (fun h => by rw [h] at ht; cases ht), if_neg (fun h => by rw [h] at hu; cases hu)]
    exact coupled_unexpected htu _
  · rw [hk]
    split
    · exact coupled_advance_bind ht fun _ _ => coupled_pure ()
    · exact coupled_unexpected htu _

theorem coupled_factor (room : Nat) : C.Coupled [] (factor room) (factor room) := by
  induction room using Nat.strongRecOn with
  | _ room ih =>
    unfold factor
    refine coupled_advance_bind_of_terminator (fun t u htu ht => ?_) fun t u htu ht => ?_
    · rw [((C.kind_cases htu).resolve_left fun h => ht h.1).2]
      cases hk : t.kind with
      | number x => exact coupled_pure _
      | identifier name => exact coupled_pure _
      | minus =>
        cases room with
        | zero => exact coupled_unexpected htu _
        | succ room =>
          refine (ih room (Nat.lt_succ_self room)).bind fun tree => ?_
          dsimp only
          split
          · exact coupled_unexpected htu _
          · exact coupled_pure _
      | leftParen =>
        cases room with
        | zero => exact coupled_unexpected htu _
        | succ room =>
          refine (coupled_sum (ih room (Nat.lt_succ_self room))).bind fun inner => ?_
          exact coupled_closeParen.bind fun _ => coupled_pure inner
      | _ => exact coupled_unexpected htu _
    · -- neither a line feed nor an end of file begins a factor, so the two may differ here
      have hu := ((C.kind_cases htu).resolve_right fun h => h.1 ht).2
      rcases isTerminator_iff.mp ht with ht | ht <;> rcases isTerminator_iff.mp hu with hu | hu <;>
        exact ⟨_, by rw [ht], by rw [hu]⟩

theorem coupled_expression : C.Coupled [] expression expression :=
  (coupled_sum (coupled_factor maxDepth)).bind fun tree => coupled_pure tree.1

theorem coupled_statement : C.Coupled [] statement statement := by
  have hexpr {ts : List Token} : C.Coupled ts (expression >>= fun e => pure (Statement.expr e))
      (expression >>= fun e => pure (Statement.expr e)) :=
    (coupled_expression.bind fun e => coupled_pure _).weaken
  unfold statement
  refine coupled_peek_bind fun t u htu => ?_
  rcases C.kind_cases htu with ⟨ht, hu⟩ | ⟨ht, hk⟩
  · rcases isTerminator_iff.mp ht with ht | ht <;> rcases isTerminator_iff.mp hu with hu | hu <;>
      rw [ht, hu] <;> exact hexpr
  · rw [hk]
    cases ht' : t.kind with
    | identifier name =>
      -- only an assignment goes past the second token, and then that token is `=` on both sides
      refine coupled_peekSecond_bind ht fun t₂ u₂ htu₂ => ?_
      rcases C.kind_cases htu₂ with ⟨ht₂, hu₂⟩ | ⟨ht₂, hk₂⟩
      · rw [if_neg (fun h => by rw [h] at ht₂; cases ht₂), if_neg (fun h => by rw [h] at hu₂; cases hu₂)]
        exact hexpr
      · rw [hk₂]
        split
        · refine coupled_discard_advance_bind ht (coupled_discard_advance_bind ht₂ ?_)
          exact coupled_expression.bind fun e => coupled_pure _
        · exact hexpr
    | _ => exact hexpr

end Coupling
end LineCalc.Parser
