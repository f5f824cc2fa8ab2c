import LineCalc.Proofs.Ahead

/-! What the parser accepts is in the grammar and within the limits. -/

namespace LineCalc.Parser
open Grammar
variable {p q : Parser} {w : List Token.Kind} {room : Nat}

/-- The kinds begin with a phrase that spells a tree within the limits, and `rest` follows it. -/
inductive Begins (N : Phrase) (room : Nat) : List Token.Kind → Tree → List Token.Kind → Prop
  | intro {w v rest e d} : w = v ++ rest → Derives N v e d → d ≤ room → e.height ≤ maxDepth →
    Begins N room w (e, e.height) rest

def Sound (N : Phrase) (room : Nat) (x : Parse Tree) : Prop :=
  ∀ ⦃p q : Parser⦄ ⦃w : List Token.Kind⦄ ⦃tree : Tree⦄, p.Ahead w → p.run x = (.ok tree, q) →
    ∃ rest, Begins N room w tree rest ∧ q.Ahead rest

section
variable {M N : Phrase} {op? : Token.Kind → Option BinaryOp} {operand : Parse Tree}

/-- `N` is a chain of phrases `M`, joined by the operators that `op?` knows. -/
structure IsChain (M N : Phrase) (op? : Token.Kind → Option BinaryOp) : Prop where
  eof : op? .eof = none
  first : ∀ {w e d}, Derives M w e d → Derives N w e d
  next : ∀ {k op v w l r d d'}, op? k = some op → Derives N v l d → Derives M w r d' →
    Derives N (v ++ k :: w) (.binary op l r) (max d d')

theorem isChain_term : IsChain .factor .term multiplicative? where
  eof := rfl
  first := .factor
  next hop hl hr := by
    obtain ⟨hop', rfl⟩ := multiplicative?_eq_some.mp hop
    exact .product hop' hl hr

theorem isChain_expression : IsChain .term .expression additive? where
  eof := rfl
  first := .term
  next hop hl hr := by
    obtain ⟨hop', rfl⟩ := additive?_eq_some.mp hop
    exact .sum hop' hl hr

theorem sound_operations (hN : IsChain M N op?) (hoperand : Sound M room operand)
    {u : List Token.Kind} {left : Expr} {d : Nat} {tree : Tree} (hu : Derives N u left d)
    (hd : d ≤ room) (hleft : left.height ≤ maxDepth) (hp : p.Ahead w)
    (hrun : p.run (operations op? operand left left.height) = (.ok tree, q)) :
    ∃ rest, Begins N room (u ++ w) tree rest ∧ q.Ahead rest := by
  -- every round makes the left operand higher, up to the limit
  induction hn : maxDepth - left.height using Nat.strongRecOn generalizing p u left d w with
  | _ n ih =>
    obtain ⟨t, p₁, hpeek, hk, hp₁⟩ := hp.peek
    cases hop : op? t.kind with
    | none =>
      rw [run_operations_of_none hpeek hop] at hrun
      cases hrun
      exact ⟨w, .intro rfl hu hd hleft, hp₁⟩
    | some op =>
      cases w with
      | nil =>
        rw [hk, List.headD_nil, hN.eof] at hop
        cases hop
      | cons k w =>
        obtain ⟨t', p₂, hadvance, -, hp₂⟩ := hp₁.advance_cons
        rw [run_operations_of_some hpeek hop hadvance] at hrun
        obtain ⟨right, p₃, hright, hrest⟩ := run_bind_eq_ok.mp hrun
        obtain ⟨rest, ⟨hw, hr, hd', -⟩, hp₃⟩ := hoperand hp₂ hright
        split at hrest
        · cases hrest
        · rename_i r d' hheight
          rw [hk] at hop
          have hl := hN.next hop hu hr
          have hlow : (Expr.binary op left r).height ≤ maxDepth := Nat.not_lt.mp hheight
          have hlt : maxDepth - (Expr.binary op left r).height < n := by
            simp only [Expr.height] at hlow ⊢
            omega
          have hrec := ih _ hlt hl (Nat.max_le.mpr ⟨hd, hd'⟩) hlow hp₃ hrest rfl
          rwa [List.append_assoc, List.cons_append, ← hw] at hrec

theorem sound_chain (hN : IsChain M N op?) (hoperand : Sound M room operand) :
    Sound N room (chain op? operand) := by
  intro p q w tree hp hrun
  obtain ⟨left, p₁, hleft, hrest⟩ := run_bind_eq_ok.mp hrun
  obtain ⟨rest, ⟨hw, hu, hd, hheight⟩, hp₁⟩ := hoperand hp hleft
  rw [hw]
  exact sound_operations hN hoperand (hN.first hu) hd hheight hp₁ hrest

end

theorem sound_sum {x : Parse Tree} (h : Sound .factor room x) : Sound .expression room (sum x) :=
  sound_chain isChain_expression (sound_chain isChain_term h)

theorem sound_closeParen (hp : p.Ahead w) (hrun : p.run closeParen = (.ok (), q)) :
    ∃ rest, w = .rightParen :: rest ∧ q.Ahead rest := by
  obtain ⟨t, p₁, hpeek, hk, hp₁⟩ := hp.peek
  unfold closeParen at hrun
  rw [moves_peek, run_bind_of_ok hpeek] at hrun
  split at hrun
  · rename_i hparen
    rw [hparen] at hk
    cases w with
    | nil => cases hk
    | cons k w =>
      obtain ⟨t', p₂, hadvance, -, hp₂⟩ := hp₁.advance_cons
      rw [moves_advance, run_discard_of_ok hadvance] at hrun
      cases hrun
      exact ⟨w, by rw [hk]; rfl, hp₂⟩
  · cases hrun

theorem sound_factor (room : Nat) : Sound .factor room (factor room) := by
  induction room using Nat.strongRecOn with
  | _ room ih =>
    intro p q w tree hp hrun
    obtain ⟨t, p₁, hadvance, hk, hp₁⟩ := hp.advance
    unfold factor at hrun
    rw [moves_advance, run_bind_of_ok hadvance, hk] at hrun
    cases w with
    | nil => cases hrun
    | cons k w =>
      have hp₁ := hp₁ (List.cons_ne_nil k w)
      rw [List.headD_cons] at hrun
      cases k with
      | number x =>
        cases hrun
        exact ⟨w, .intro rfl (.number x) (Nat.zero_le _) (Nat.zero_le _), hp₁⟩
      | identifier name =>
        cases hrun
        exact ⟨w, .intro rfl (.identifier name) (Nat.zero_le _) (Nat.zero_le _), hp₁⟩
      | minus =>
        cases room with
        | zero => cases hrun
        | succ room =>
          obtain ⟨operand, p₂, hoperand, hrest⟩ := run_bind_eq_ok.mp hrun
          obtain ⟨rest, ⟨hw, he, hd, -⟩, hp₂⟩ := ih room (Nat.lt_succ_self _) hp₁ hoperand
          dsimp only at hrest
          split at hrest
          · cases hrest
          · cases hrest
            exact ⟨rest, .intro (congrArg (.minus :: ·) hw) (.negation he) (Nat.succ_le_succ hd)
              (Nat.not_lt.mp ‹_›), hp₂⟩
      | leftParen =>
        cases room with
        | zero => cases hrun
        | succ room =>
          obtain ⟨inner, p₂, hinner, hrest⟩ := run_bind_eq_ok.mp hrun
          obtain ⟨_, ⟨hw, he, hd, hheight⟩, hp₂⟩ :=
            sound_sum (ih room (Nat.lt_succ_self _)) hp₁ hinner
          obtain ⟨_, p₃, hclose, hrest⟩ := run_bind_eq_ok.mp hrest
          obtain ⟨rest, rfl, hp₃⟩ := sound_closeParen hp₂ hclose
          cases hrest
          rw [List.append_cons] at hw
          exact ⟨rest, .intro (congrArg (.leftParen :: ·) hw) (.parens he) (Nat.succ_le_succ hd)
            hheight, hp₃⟩
      | _ => cases hrun

theorem sound_expression {e : Expr} (hp : p.Ahead w) (hrun : p.run expression = (.ok e, q)) :
    ∃ v rest d, w = v ++ rest ∧ Derives .expression v e d ∧ d ≤ maxDepth ∧
      e.height ≤ maxDepth ∧ q.Ahead rest := by
  obtain ⟨tree, p₁, hsum, hrest⟩ := run_bind_eq_ok.mp hrun
  obtain ⟨rest, ⟨hw, he, hd, hheight⟩, hp₁⟩ := sound_sum (sound_factor maxDepth) hp hsum
  cases hrest
  exact ⟨_, rest, _, hw, he, hd, hheight, hp₁⟩

theorem sound_statement {s : Statement} (hp : p.Ahead w) (hrun : p.run statement = (.ok s, q)) :
    ∃ v rest d, w = v ++ rest ∧ DerivesStatement v s d ∧ d ≤ maxDepth ∧
      s.body.height ≤ maxDepth ∧ q.Ahead rest := by
  -- a statement that does not begin with an identifier and `=` is an expression
  have hexpr {p : Parser} (hp : p.Ahead w)
      (hrun : p.run (expression >>= fun e => pure (.expr e)) = (.ok s, q)) :
      ∃ v rest d, w = v ++ rest ∧ DerivesStatement v s d ∧ d ≤ maxDepth ∧
        s.body.height ≤ maxDepth ∧ q.Ahead rest := by
    obtain ⟨e, p₁, he, hrest⟩ := run_bind_eq_ok.mp hrun
    obtain ⟨v, rest, d, hw, hv, hd, hheight, hp₁⟩ := sound_expression hp he
    cases hrest
    exact ⟨v, rest, d, hw, .expr hv, hd, hheight, hp₁⟩
  obtain ⟨t, p₁, hpeek, hk, hp₁⟩ := hp.peek
  unfold statement at hrun
  rw [moves_peek, run_bind_of_ok hpeek] at hrun
  cases ht : t.kind with
  | identifier name =>
    rw [ht] at hrun hk
    cases w with
    | nil => cases hk
    | cons k w =>
      rw [List.headD_cons] at hk
      subst hk
      obtain ⟨u, p₂, hsecond, hu, hp₂⟩ := hp₁.peekSecond
      dsimp only at hrun
      rw [moves_peekSecond, moves_advance, run_bind_of_ok hsecond] at hrun
      split at hrun
      · rename_i hassign
        rw [hassign] at hu
        cases w with
        | nil => cases hu
        | cons k w =>
          rw [List.headD_cons] at hu
          subst hu
          obtain ⟨_, p₃, hfirst, -, hp₃⟩ := hp₂.advance_cons
          obtain ⟨_, p₄, hsign, -, hp₄⟩ := hp₃.advance_cons
          rw [run_bind_of_ok (run_discard_of_ok hfirst),
            run_bind_of_ok (run_discard_of_ok hsign)] at hrun
          obtain ⟨e, p₅, he, hrest⟩ := run_bind_eq_ok.mp hrun
          obtain ⟨v, rest, d, rfl, hv, hd, hheight, hp₅⟩ := sound_expression hp₄ he
          cases hrest
          exact ⟨_, rest, d, rfl, .assign hv, hd, hheight, hp₅⟩
      · exact hexpr hp₂ hrun
  | _ =>
    rw [ht] at hrun
    exact hexpr hp₁ hrun

theorem sound_endStatement (hp : p.Ahead w) (hrun : p.run endStatement = (.ok (), q)) :
    (w = [] ∧ q.Ahead []) ∨ ∃ rest, w = .newline :: rest ∧ q.Ahead rest := by
  obtain ⟨t, p₁, hpeek, hk, hp₁⟩ := hp.peek
  unfold endStatement at hrun
  rw [moves_peek, run_bind_of_ok hpeek, hk] at hrun
  cases w with
  | nil =>
    cases hrun
    exact .inl ⟨rfl, hp₁⟩
  | cons k w =>
    rw [List.headD_cons] at hrun
    cases k with
    | newline =>
      obtain ⟨_, p₂, hadvance, -, hp₂⟩ := hp₁.advance_cons
      cases (run_discard_of_ok hadvance).symm.trans hrun
      exact .inr ⟨w, rfl, hp₂⟩
    | eof => exact absurd (List.mem_cons_self ..) hp.eof_not_mem
    | _ => cases hrun

theorem sound_statements {rounds index : Nat} {program : Program} (hp : p.Ahead w)
    (hrounds : w.length < rounds)
    (hrun : p.run (statements rounds index) = (.ok program, q)) :
    ∃ d, DerivesProgram w program d ∧ d ≤ maxDepth ∧ ∀ s ∈ program, s.body.height ≤ maxDepth := by
  induction rounds generalizing p q w index program with
  | zero => cases hrounds
  | succ rounds ih =>
    obtain ⟨t, p₁, hpeek, hk, hp₁⟩ := hp.peek
    unfold statements at hrun
    rw [moves_peek, run_bind_of_ok hpeek, hk] at hrun
    cases w with
    | nil =>
      cases hrun
      exact ⟨0, .empty, Nat.zero_le _, by simp⟩
    | cons k w =>
      rw [List.headD_cons] at hrun
      rw [List.length_cons, Nat.succ_lt_succ_iff] at hrounds
      split at hrun
      · exact absurd (List.mem_cons_self ..) hp.eof_not_mem
      · obtain ⟨_, p₂, hadvance, -, hp₂⟩ := hp₁.advance_cons
        rw [moves_advance, run_bind_of_ok (run_discard_of_ok hadvance)] at hrun
        obtain ⟨d, hw, hd, hheight⟩ := ih hp₂ hrounds hrun
        exact ⟨d, .blank hw, hd, hheight⟩
      · obtain ⟨s, p₂, hs, hrun⟩ := run_bind_eq_ok.mp hrun
        obtain ⟨v, rest, d, hw, hv, hd, hheight, hp₂⟩ := sound_statement hp₁ hs
        rw [moves_report, run_report_bind] at hrun
        obtain ⟨_, p₃, hend, hrun⟩ := run_bind_eq_ok.mp hrun
        obtain ⟨later, p₄, hlater, hrun⟩ := run_bind_eq_ok.mp hrun
        cases hrun
        rcases sound_endStatement (hp₂.report _) hend with ⟨rfl, hp₃⟩ | ⟨rest, rfl, hp₃⟩
        · obtain ⟨p₅, hnil, -⟩ := run_statements_nil hp₃ rounds (index + 1)
          cases hnil.symm.trans hlater
          rw [hw, List.append_nil]
          exact ⟨d, .last hv, hd, by simpa using hheight⟩
        -- the line feed alone makes what is left shorter
        · have hrest : rest.length < rounds := by
            have hlen := congrArg List.length hw
            simp only [List.length_cons, List.length_append] at hlen
            omega
          obtain ⟨d', hrest, hd', hheight'⟩ := ih hp₃ hrest hlater
          rw [hw]
          refine ⟨_, .line hv hrest, Nat.max_le.mpr ⟨hd, hd'⟩, ?_⟩
          exact List.forall_mem_cons.mpr ⟨hheight, hheight'⟩

end LineCalc.Parser
