import LineCalc.Proofs.Acceptance

/-! Programs of the grammar beyond the limits. Whatever the grammar derives but the limits exclude
is refused for its depth, never as a token out of place. -/

namespace LineCalc.Parser
open Grammar

section
variable {α β : Type} {x y : Parse α} {f : α → Parse β} {a : α} {v w : List Token.Kind}

def Overflows (x : Parse α) (w : List Token.Kind) : Prop :=
  ∀ ⦃p : Parser⦄, p.Ahead w → ∃ t q, p.run x = (.error (tooDeep t), q)

theorem overflows_throw (t : Token) (w : List Token.Kind) :
    Overflows (throw (tooDeep t) : Parse α) w :=
  fun p _ => ⟨t, p, rfl⟩

theorem Overflows.bind (hx : Overflows x w) : Overflows (x >>= f) w := by
  intro p hp
  obtain ⟨t, q, hrun⟩ := hx hp
  exact ⟨t, q, run_bind_of_error hrun⟩

theorem Becomes.overflows (hx : Becomes x w y v) (hy : Overflows y v) : Overflows x w := by
  intro p hp
  obtain ⟨q, hxy, hq⟩ := hx hp
  rw [hxy]
  exact hy hq

theorem Takes.bind_overflows (hx : Takes x w a v) (hf : Overflows (f a) v) :
    Overflows (x >>= f) w :=
  hx.becomes.overflows hf

theorem Overflows.peek_bind {f : Token → Parse β}
    (hf : ∀ t : Token, t.kind = w.headD .eof → Overflows (f t) w) : Overflows (peek >>= f) w := by
  intro p hp
  obtain ⟨t, q, hrun, hk, hq⟩ := hp.peek
  rw [run_bind_of_ok hrun]
  exact hf t hk hq

theorem Overflows.advance_bind {k : Token.Kind} {f : Token → Parse β}
    (hf : ∀ t : Token, t.kind = k → Overflows (f t) w) : Overflows (advance >>= f) (k :: w) := by
  intro p hp
  obtain ⟨t, q, hrun, hk, hq⟩ := hp.advance_cons
  rw [run_bind_of_ok hrun]
  exact hf t hk hq

end

section
variable {w : List Token.Kind} {room d : Nat} {e : Expr}

/-- An operator overflows with its right operand, or by the tree that it makes. -/
theorem overflows_operations {op? : Token.Kind → Option BinaryOp} {operand : Parse Tree}
    {op : BinaryOp} {l r : Expr} {k : Token.Kind} (hk : op? k = some op)
    (h : Overflows operand w ∨
      (∃ rest, Takes operand w (r, r.height) rest) ∧ maxDepth < (Expr.binary op l r).height) :
    Overflows (operations op? operand l l.height) (k :: w) := by
  intro p hp
  obtain ⟨t, p₁, hpeek, ht, hp₁⟩ := hp.peek
  obtain ⟨u, p₂, hadvance, -, hp₂⟩ := hp₁.advance_cons
  rw [run_operations_of_some hpeek (by rw [ht]; exact hk) hadvance]
  rcases h with hoperand | ⟨⟨rest, hoperand⟩, hheight⟩
  · exact hoperand.bind hp₂
  · obtain ⟨q, hright, -⟩ := hoperand hp₂
    refine ⟨u, q, ?_⟩
    rw [run_bind_of_ok hright]
    exact congrArg q.run (if_pos hheight)

def ReadsTooDeep (room : Nat) (w : List Token.Kind) : Phrase → Prop
  | .factor => ∀ rest, Overflows (factor room) (w ++ rest)
  | .term => ∀ rest, Overflows (term (factor room)) (w ++ rest)
  | .expression => ∀ rest, multiplicative? (rest.headD .eof) = none →
    Overflows (sum (factor room)) (w ++ rest)

theorem readsTooDeep_of_derives {N : Phrase} (h : Derives N w e d)
    (hlimit : room < d ∨ maxDepth < e.height) : ReadsTooDeep room w N := by
  induction h generalizing room with
  | number x => simp [Expr.height] at hlimit
  | identifier name => simp [Expr.height] at hlimit
  | @negation w e d he ih =>
    intro rest
    unfold factor
    refine .advance_bind fun t ht => ?_
    rw [ht]
    cases room with
    | zero => exact overflows_throw t _
    | succ room =>
      -- an operand within the limits is read, and then the sign makes the tree too high
      by_cases hoperand : room < d ∨ maxDepth < e.height
      · exact (ih hoperand rest).bind
      · obtain ⟨hd, hheight⟩ := not_or.mp hoperand
        have hhigh : maxDepth < e.height + 1 :=
          hlimit.resolve_left fun h => hd (Nat.lt_of_succ_lt_succ h)
        have hreads := reads_of_derives he (Nat.not_lt.mp hd) (Nat.not_lt.mp hheight) rest
        refine hreads.bind_overflows ?_
        dsimp only
        rw [if_pos hhigh]
        exact overflows_throw t _
  | @parens w e d _ ih =>
    intro rest
    rw [List.cons_append, ← List.append_cons]
    unfold factor
    refine .advance_bind fun t ht => ?_
    rw [ht]
    cases room with
    | zero => exact overflows_throw t _
    | succ room =>
      have hinner : room < d ∨ maxDepth < e.height := hlimit.imp_left Nat.lt_of_succ_lt_succ
      exact (ih hinner (.rightParen :: rest) rfl).bind
  | factor _ ih => exact fun rest => (ih hlimit rest).bind
  | term _ ih => exact fun rest hrest => (ih hlimit rest).bind
  | @product op v w l r d d' hop hl hr ihl ihr =>
    intro rest
    rw [List.append_assoc]
    -- operands are read from left to right, and the tree is made after both
    by_cases hleft : room < d ∨ maxDepth < l.height
    · exact ihl hleft _
    obtain ⟨hd, hheight⟩ := not_or.mp hleft
    refine (reads_of_derives hl (Nat.not_lt.mp hd) (Nat.not_lt.mp hheight) _).overflows ?_
    refine overflows_operations (r := r) (multiplicative?_eq_some.mpr ⟨hop, rfl⟩) ?_
    by_cases hright : room < d' ∨ maxDepth < r.height
    · exact .inl (ihr hright rest)
    · obtain ⟨hd', hheight'⟩ := not_or.mp hright
      refine .inr ⟨⟨rest, ?_⟩, hlimit.resolve_left (by omega)⟩
      exact reads_of_derives hr (Nat.not_lt.mp hd') (Nat.not_lt.mp hheight') rest
  | @sum op v w l r d d' hop hl hr ihl ihr =>
    intro rest hrest
    have hsign : multiplicative? op.kind = none := by rcases hop with rfl | rfl <;> rfl
    rw [List.append_assoc]
    by_cases hleft : room < d ∨ maxDepth < l.height
    · exact ihl hleft (op.kind :: (w ++ rest)) hsign
    obtain ⟨hd, hheight⟩ := not_or.mp hleft
    refine (reads_of_derives hl (Nat.not_lt.mp hd) (Nat.not_lt.mp hheight)
      (op.kind :: (w ++ rest)) hsign).overflows ?_
    refine overflows_operations (r := r) (additive?_eq_some.mpr ⟨hop, rfl⟩) ?_
    by_cases hright : room < d' ∨ maxDepth < r.height
    · exact .inl (ihr hright rest)
    · obtain ⟨hd', hheight'⟩ := not_or.mp hright
      refine .inr ⟨⟨rest, ?_⟩, hlimit.resolve_left (by omega)⟩
      exact (reads_of_derives hr (Nat.not_lt.mp hd') (Nat.not_lt.mp hheight') rest).takes
        (takes_operations_none _ _ hrest)

end

section
variable {v w rest : List Token.Kind} {s : Statement} {e : Expr} {d : Nat}

theorem overflows_expression (h : Derives .expression v e d)
    (hlimit : maxDepth < d ∨ maxDepth < e.height)
    (hrest : ∀ op : BinaryOp, rest.headD .eof ≠ op.kind) : Overflows expression (v ++ rest) :=
  (readsTooDeep_of_derives h hlimit rest (multiplicative?_eq_none hrest)).bind

theorem overflows_statement (h : DerivesStatement v s d)
    (hlimit : maxDepth < d ∨ maxDepth < s.body.height) (hrest : Stops v (rest.headD .eof)) :
    Overflows statement (v ++ rest) := by
  obtain ⟨make, w, -, hw, hbecomes⟩ := becomes_statement h hrest
  exact hbecomes.overflows (overflows_expression hw hlimit hrest.no_operator).bind

theorem overflows_statements_cons {rounds index : Nat} (h : DerivesStatement v s d)
    (hrest : (rest.headD .eof).isTerminator)
    (hlater : ¬ (maxDepth < d ∨ maxDepth < s.body.height) →
      ∃ w, Takes endStatement rest () w ∧ Overflows (statements rounds (index + 1)) w) :
    Overflows (statements (rounds + 1) index) (v ++ rest) := by
  unfold statements
  refine .peek_bind fun t ht => ?_
  have hbegin := h.isInner_headD rest
  rw [← ht] at hbegin
  split
  · rename_i hk
    rw [hk] at hbegin
    cases hbegin
  · rename_i hk
    rw [hk] at hbegin
    cases hbegin
  · by_cases hfirst : maxDepth < d ∨ maxDepth < s.body.height
    · exact (overflows_statement h hfirst (stops_of_isTerminator hrest)).bind
    · obtain ⟨hd, hheight⟩ := not_or.mp hfirst
      obtain ⟨w, hend, hlater⟩ := hlater hfirst
      exact (takes_statement h (Nat.not_lt.mp hd) (Nat.not_lt.mp hheight)
        (stops_of_isTerminator hrest)).bind_overflows
        ((takes_report _ _).bind_overflows (hend.bind_overflows hlater.bind))

theorem overflows_statements {rounds index : Nat} {program : Program}
    (h : DerivesProgram w program d)
    (hlimit : maxDepth < d ∨ ∃ s ∈ program, maxDepth < s.body.height)
    (hrounds : w.length < rounds) : Overflows (statements rounds index) w := by
  induction h generalizing rounds index with
  | empty => simp at hlimit
  | blank _ ih =>
    cases rounds with
    | zero => cases hrounds
    | succ rounds =>
      unfold statements
      refine .peek_bind fun t ht => ?_
      rw [ht]
      exact (takes_discard_advance _ _).bind_overflows (ih hlimit (Nat.lt_of_succ_lt_succ hrounds))
  | @line v w s p d d' hv _ ih =>
    cases rounds with
    | zero => cases hrounds
    | succ rounds =>
      rw [List.length_append, List.length_cons] at hrounds
      refine overflows_statements_cons hv rfl fun hfirst => ?_
      refine ⟨w, takes_endStatement_newline w, ih ?_ (by omega)⟩
      simp only [List.mem_cons, exists_eq_or_imp] at hlimit
      rcases hlimit with hdepth | hheight | hlater
      · exact .inl (by omega)
      · exact absurd (.inr hheight) hfirst
      · exact .inr hlater
  | @last v s d hv =>
    cases rounds with
    | zero => cases hrounds
    | succ rounds =>
      have hfirst : maxDepth < d ∨ maxDepth < s.body.height := by simpa using hlimit
      rw [← List.append_nil v]
      exact overflows_statements_cons hv rfl fun h => absurd hfirst h

end

section
variable {tokens us vs : List Token} {program : Program} {d : Nat}

theorem parse_beyond_limits (h : DerivesProgram (kindsBeforeEof tokens) program d)
    (hlimit : maxDepth < d ∨ ∃ s ∈ program, maxDepth < s.body.height) :
    ∃ t, (ofTokens tokens).parse.1 = .error (tooDeep t) := by
  obtain ⟨t, q, hrun⟩ :=
    overflows_statements h hlimit (length_lt_rounds tokens) (ahead_ofTokens tokens)
  exact ⟨t, by rw [parse_fst, hrun]⟩

theorem kindsBeforeEof_of_derives (h : DerivesProgram (us.map Token.kind) program d)
    (hvs : kindsBeforeEof vs = []) : kindsBeforeEof (us ++ vs) = us.map Token.kind := by
  have hus : ∀ k ∈ us.map Token.kind, decide (k ≠ .eof) = true := by
    simpa using h.ne_eof
  rw [kindsBeforeEof, List.map_append, List.takeWhile_append_of_pos hus]
  exact (congrArg _ hvs).trans (List.append_nil _)

end

end LineCalc.Parser
