import LineCalc.Proofs.Soundness

/-! The parser accepts the programs of the grammar within the limits on nesting and on the height
of trees, and nothing else. One direction is soundness; for the other, a derivation tells what
every step does on the kinds that it derives. -/

namespace LineCalc

theorem Expr.height_left_le {op : BinaryOp} {l r : Expr} {n : Nat}
    (h : (Expr.binary op l r).height ≤ n) : l.height ≤ n := by
  simp only [Expr.height] at h
  omega

theorem Expr.height_right_le {op : BinaryOp} {l r : Expr} {n : Nat}
    (h : (Expr.binary op l r).height ≤ n) : r.height ≤ n := by
  simp only [Expr.height] at h
  omega

namespace Parser
open Grammar
variable {p : Parser} {k : Token.Kind} {v w : List Token.Kind} {room : Nat}

section
variable {α β : Type} {x : Parse α} {f : α → Parse β} {a : α} {b : β} {rest : List Token.Kind}

/-- On the kinds `w` the step succeeds with `a` and leaves the kinds `rest`. -/
def Takes (x : Parse α) (w : List Token.Kind) (a : α) (rest : List Token.Kind) : Prop :=
  ∀ ⦃p : Parser⦄, p.Ahead w → ∃ q, p.run x = (.ok a, q) ∧ q.Ahead rest

/-- On the kinds `w` the step becomes the step `y` on the kinds `rest`. -/
def Becomes (x : Parse α) (w : List Token.Kind) (y : Parse α) (rest : List Token.Kind) : Prop :=
  ∀ ⦃p : Parser⦄, p.Ahead w → ∃ q : Parser, p.run x = q.run y ∧ q.Ahead rest

theorem Takes.pure (a : α) (w : List Token.Kind) : Takes (pure a) w a w :=
  fun p hp => ⟨p, rfl, hp⟩

theorem Takes.bind (hx : Takes x w a v) (hf : Takes (f a) v b rest) :
    Takes (x >>= f) w b rest := by
  intro p hp
  obtain ⟨p₁, hrun, hp₁⟩ := hx hp
  rw [run_bind_of_ok hrun]
  exact hf hp₁

theorem Takes.peek_bind {f : Token → Parse β}
    (hf : ∀ t : Token, t.kind = w.headD .eof → Takes (f t) w b rest) :
    Takes (peek >>= f) w b rest := by
  intro p hp
  obtain ⟨t, p₁, hrun, hk, hp₁⟩ := hp.peek
  rw [run_bind_of_ok hrun]
  exact hf t hk hp₁

theorem Takes.advance_bind {f : Token → Parse β}
    (hf : ∀ t : Token, t.kind = k → Takes (f t) w b rest) :
    Takes (advance >>= f) (k :: w) b rest := by
  intro p hp
  obtain ⟨t, p₁, hrun, hk, hp₁⟩ := hp.advance_cons
  rw [run_bind_of_ok hrun]
  exact hf t hk hp₁

theorem takes_discard_advance (k : Token.Kind) (w : List Token.Kind) :
    Takes (discard advance) (k :: w) () w := by
  intro p hp
  obtain ⟨t, p₁, hrun, -, hp₁⟩ := hp.advance_cons
  exact ⟨p₁, run_discard_of_ok hrun, hp₁⟩

theorem takes_report (e : Event) (w : List Token.Kind) : Takes (report e) w () w :=
  fun _ hp => ⟨_, rfl, hp.report _⟩

theorem Becomes.trans {y z : Parse α} (hx : Becomes x w y v) (hy : Becomes y v z rest) :
    Becomes x w z rest := by
  intro p hp
  obtain ⟨p₁, hxy, hp₁⟩ := hx hp
  obtain ⟨p₂, hyz, hp₂⟩ := hy hp₁
  exact ⟨p₂, hxy.trans hyz, hp₂⟩

theorem Becomes.peek_bind {f : Token → Parse β} {y : Parse β}
    (hf : ∀ t : Token, t.kind = w.headD .eof → Becomes (f t) w y rest) :
    Becomes (peek >>= f) w y rest := by
  intro p hp
  obtain ⟨t, p₁, hrun, hk, hp₁⟩ := hp.peek
  rw [run_bind_of_ok hrun]
  exact hf t hk hp₁

theorem Becomes.peekSecond_bind {f : Token → Parse β} {y : Parse β}
    (hf : ∀ t : Token, t.kind = w.headD .eof → Becomes (f t) (k :: w) y rest) :
    Becomes (peekSecond >>= f) (k :: w) y rest := by
  intro p hp
  obtain ⟨t, p₁, hrun, hk, hp₁⟩ := hp.peekSecond
  rw [run_bind_of_ok hrun]
  exact hf t hk hp₁

theorem Becomes.refl (x : Parse α) (w : List Token.Kind) : Becomes x w x w :=
  fun p hp => ⟨p, rfl, hp⟩

theorem Becomes.takes {y : Parse α} (hx : Becomes x w y v) (hy : Takes y v a rest) :
    Takes x w a rest := by
  intro p hp
  obtain ⟨p₁, hxy, hp₁⟩ := hx hp
  rw [hxy]
  exact hy hp₁

theorem Takes.becomes (hx : Takes x w a v) : Becomes (x >>= f) w (f a) v := by
  intro p hp
  obtain ⟨p₁, hrun, hp₁⟩ := hx hp
  exact ⟨p₁, run_bind_of_ok hrun, hp₁⟩

end

section
variable {op? : Token.Kind → Option BinaryOp} {operand : Parse Tree} {rest : List Token.Kind}

theorem takes_operations_none (e : Expr) (height : Nat) (hw : op? (w.headD .eof) = none) :
    Takes (operations op? operand e height) w (e, height) w := by
  intro p hp
  obtain ⟨t, q, hpeek, hk, hq⟩ := hp.peek
  exact ⟨q, run_operations_of_none hpeek (by rw [hk, hw]), hq⟩

theorem becomes_operations {op : BinaryOp} {l r : Expr} (hk : op? k = some op)
    (hheight : (Expr.binary op l r).height ≤ maxDepth)
    (hr : Takes operand w (r, r.height) rest) :
    Becomes (operations op? operand l l.height) (k :: w)
      (operations op? operand (.binary op l r) (Expr.binary op l r).height) rest := by
  intro p hp
  obtain ⟨t, p₁, hpeek, ht, hp₁⟩ := hp.peek
  obtain ⟨t', p₂, hadvance, -, hp₂⟩ := hp₁.advance_cons
  obtain ⟨q, hright, hq⟩ := hr hp₂
  refine ⟨q, ?_, hq⟩
  rw [run_operations_of_some hpeek (by rw [ht]; exact hk) hadvance, run_bind_of_ok hright]
  exact congrArg q.run (if_neg (Nat.not_lt.mpr hheight))

end

theorem takes_closeParen (w : List Token.Kind) : Takes closeParen (.rightParen :: w) () w := by
  unfold closeParen
  refine .peek_bind fun t ht => ?_
  rw [List.headD_cons] at ht
  rw [if_pos ht]
  exact takes_discard_advance _ _

/-- What reading a phrase does on kinds that begin with one. A chain goes on with what follows
the phrase, since an operator there can still take it as left operand. -/
def Reads (room : Nat) (w : List Token.Kind) (e : Expr) : Phrase → Prop
  | .factor => ∀ rest, Takes (factor room) (w ++ rest) (e, e.height) rest
  | .term => ∀ rest, Becomes (term (factor room)) (w ++ rest)
    (operations multiplicative? (factor room) e e.height) rest
  | .expression => ∀ rest, multiplicative? (rest.headD .eof) = none →
    Becomes (sum (factor room)) (w ++ rest)
      (operations additive? (term (factor room)) e e.height) rest

theorem reads_of_derives {N : Phrase} {e : Expr} {d : Nat} (h : Derives N w e d) (hd : d ≤ room)
    (hheight : e.height ≤ maxDepth) : Reads room w e N := by
  induction h generalizing room with
  | number x =>
    intro rest
    unfold factor
    refine .advance_bind fun t ht => ?_
    rw [ht]
    exact .pure _ _
  | identifier name =>
    intro rest
    unfold factor
    refine .advance_bind fun t ht => ?_
    rw [ht]
    exact .pure _ _
  | @negation w e d _ ih =>
    intro rest
    cases room with
    | zero => cases hd
    | succ room =>
      have hoperand := ih (Nat.le_of_succ_le_succ hd) (Nat.le_of_succ_le hheight) rest
      have hlow : ¬ maxDepth < e.height + 1 := Nat.not_lt.mpr hheight
      unfold factor
      refine .advance_bind fun t ht => ?_
      rw [ht]
      refine hoperand.bind ?_
      dsimp only
      rw [if_neg hlow]
      exact .pure _ _
  | @parens w e d _ ih =>
    intro rest
    cases room with
    | zero => cases hd
    | succ room =>
      have hinner : Takes (sum (factor room)) (w ++ .rightParen :: rest) (e, e.height)
          (.rightParen :: rest) :=
        (ih (Nat.le_of_succ_le_succ hd) hheight (.rightParen :: rest) rfl).takes
          (takes_operations_none _ _ rfl)
      rw [List.cons_append, ← List.append_cons]
      unfold factor
      refine .advance_bind fun t ht => ?_
      rw [ht]
      exact hinner.bind ((takes_closeParen rest).bind (.pure _ _))
  | factor _ ih =>
    intro rest
    exact (ih hd hheight rest).becomes
  | product hop _ _ ihl ihr =>
    intro rest
    obtain ⟨hl, hr⟩ := Nat.max_le.mp hd
    have hleft := ihl hl (Expr.height_left_le hheight)
    have hright := ihr hr (Expr.height_right_le hheight) rest
    rw [List.append_assoc]
    exact (hleft _).trans (becomes_operations (multiplicative?_eq_some.mpr ⟨hop, rfl⟩) hheight hright)
  | term _ ih =>
    intro rest hrest
    exact ((ih hd hheight rest).takes (takes_operations_none _ _ hrest)).becomes
  | @sum op v w l r d d' hop _ _ ihl ihr =>
    intro rest hrest
    obtain ⟨hl, hr⟩ := Nat.max_le.mp hd
    -- the left operand goes on behind its last term only with an operator of its own
    have hsign : multiplicative? op.kind = none := by rcases hop with rfl | rfl <;> rfl
    have hleft := ihl hl (Expr.height_left_le hheight) (op.kind :: (w ++ rest)) hsign
    have hright := (ihr hr (Expr.height_right_le hheight) rest).takes
      (takes_operations_none _ _ hrest)
    rw [List.append_assoc]
    exact hleft.trans (becomes_operations (additive?_eq_some.mpr ⟨hop, rfl⟩) hheight hright)

section
variable {s : Statement} {e : Expr} {d : Nat} {rest : List Token.Kind}

theorem takes_expression (h : Derives .expression v e d) (hd : d ≤ maxDepth)
    (hheight : e.height ≤ maxDepth) (hrest : ∀ op : BinaryOp, rest.headD .eof ≠ op.kind) :
    Takes expression (v ++ rest) e rest := by
  have hread := (reads_of_derives h hd hheight rest (multiplicative?_eq_none hrest)).takes
    (takes_operations_none _ _ (additive?_eq_none hrest))
  exact hread.bind (.pure _ _)

theorem becomes_assignment (name : String) (w : List Token.Kind) :
    Becomes statement (.identifier name :: .assign :: w)
      (expression >>= fun e => pure (.assign name e)) w := by
  unfold statement
  refine .peek_bind fun t ht => ?_
  rw [ht]
  refine .peekSecond_bind fun u hu => ?_
  rw [List.headD_cons] at hu
  rw [if_pos hu]
  exact (takes_discard_advance _ _).becomes.trans (takes_discard_advance _ _).becomes

theorem becomes_statement (h : DerivesStatement v s d) (hrest : Stops v (rest.headD .eof)) :
    ∃ (make : Expr → Statement) (w : List Token.Kind), s = make s.body ∧
      Derives .expression w s.body d ∧
      Becomes statement (v ++ rest) (expression >>= fun e => pure (make e)) (w ++ rest) := by
  cases h with
  | @assign name w e _ he => exact ⟨.assign name, w, rfl, he, becomes_assignment name (w ++ rest)⟩
  | @expr w e _ he =>
    unfold statement
    refine ⟨.expr, v, rfl, he, .peek_bind fun t ht => ?_⟩
    split
    · -- an identifier that begins an expression is not followed by `=`
      rename_i name hname
      cases v with
      | nil => exact absurd rfl he.ne_nil
      | cons k v =>
        rw [List.cons_append]
        refine .peekSecond_bind fun u hu => ?_
        have hne : u.kind ≠ .assign := by
          rw [hu]
          cases v with
          | nil => exact hrest.no_assign name (by rw [← hname, ht]; rfl)
          | cons k' v =>
            rintro rfl
            exact he.isInner .assign (by simp)
        rw [if_neg hne]
        exact .refl _ _
    · exact .refl _ _

theorem takes_statement (h : DerivesStatement v s d) (hd : d ≤ maxDepth)
    (hheight : s.body.height ≤ maxDepth) (hrest : Stops v (rest.headD .eof)) :
    Takes statement (v ++ rest) s rest := by
  obtain ⟨make, w, hs, hw, hbecomes⟩ := becomes_statement h hrest
  have hexpr : Takes (expression >>= fun e => pure (make e)) (w ++ rest) (make s.body) rest :=
    (takes_expression hw hd hheight hrest.no_operator).bind (.pure _ _)
  rw [hs]
  exact hbecomes.takes hexpr

theorem takes_endStatement_newline (w : List Token.Kind) :
    Takes endStatement (.newline :: w) () w := by
  unfold endStatement
  refine .peek_bind fun t ht => ?_
  rw [ht]
  exact takes_discard_advance _ _

theorem takes_endStatement_nil : Takes endStatement [] () [] := by
  unfold endStatement
  refine .peek_bind fun t ht => ?_
  rw [ht]
  exact .pure _ _

theorem takes_statements_cons {rounds index : Nat} {program : Program} {w : List Token.Kind}
    (h : DerivesStatement v s d) (hd : d ≤ maxDepth) (hheight : s.body.height ≤ maxDepth)
    (hrest : (rest.headD .eof).isTerminator) (hend : Takes endStatement rest () w)
    (hlater : Takes (statements rounds (index + 1)) w program []) :
    Takes (statements (rounds + 1) index) (v ++ rest) (s :: program) [] := by
  unfold statements
  refine .peek_bind fun t ht => ?_
  have hbegin := h.isInner_headD rest
  rw [← ht] at hbegin
  split
  · rename_i hk
    rw [hk] at hbegin
    cases hbegin
  · rename_i hk
    rw [hk] at hbegin
    cases hbegin
  · exact (takes_statement h hd hheight (stops_of_isTerminator hrest)).bind ((takes_report _ _).bind
      (hend.bind (hlater.bind (.pure _ _))))

theorem takes_statements {rounds index : Nat} {program : Program}
    (h : DerivesProgram w program d) (hd : d ≤ maxDepth)
    (hheight : ∀ s ∈ program, s.body.height ≤ maxDepth) (hrounds : w.length < rounds) :
    Takes (statements rounds index) w program [] := by
  induction h generalizing rounds index with
  | empty => exact fun p hp => run_statements_nil hp rounds index
  | blank _ ih =>
    cases rounds with
    | zero => cases hrounds
    | succ rounds =>
      unfold statements
      refine .peek_bind fun t ht => ?_
      rw [ht]
      exact (takes_discard_advance _ _).bind (ih hd hheight (Nat.lt_of_succ_lt_succ hrounds))
  | line hv _ ih =>
    cases rounds with
    | zero => cases hrounds
    | succ rounds =>
      obtain ⟨hd, hd'⟩ := Nat.max_le.mp hd
      obtain ⟨hs, hlater⟩ := List.forall_mem_cons.mp hheight
      rw [List.length_append, List.length_cons] at hrounds
      exact takes_statements_cons hv hd hs rfl (takes_endStatement_newline _)
        (ih hd' hlater (by omega))
  | last hv =>
    cases rounds with
    | zero => cases hrounds
    | succ rounds =>
      have hs := List.forall_mem_cons.mp hheight
      have hnil : Takes (statements rounds (index + 1)) [] [] [] :=
        fun p hp => run_statements_nil hp rounds (index + 1)
      have hlast := takes_statements_cons hv hd hs.1 rfl takes_endStatement_nil hnil
      rwa [List.append_nil] at hlast

end

theorem ahead_ofTokens (tokens : List Token) : (ofTokens tokens).Ahead (kindsBeforeEof tokens) :=
  ⟨tokens, rfl, rfl⟩

theorem length_kindsBeforeEof_le (tokens : List Token) :
    (kindsBeforeEof tokens).length ≤ tokens.length := by
  have h := (List.takeWhile_sublist (l := tokens.map Token.kind) (· ≠ .eof)).length_le
  rwa [List.length_map] at h

theorem length_lt_rounds (tokens : List Token) : (kindsBeforeEof tokens).length <
    (ofTokens tokens).unread.length + (ofTokens tokens).buffer.length + 1 := by
  have hlength := length_kindsBeforeEof_le tokens
  simp only [ofTokens, List.length_map, List.length_nil]
  omega

section
variable {tokens : List Token} {program : Program} {d : Nat}

theorem parse_within_limits (h : DerivesProgram (kindsBeforeEof tokens) program d)
    (hd : d ≤ maxDepth) (hheight : ∀ s ∈ program, s.body.height ≤ maxDepth) :
    (ofTokens tokens).parse.1 = .ok program := by
  obtain ⟨q, hrun, -⟩ :=
    takes_statements h hd hheight (length_lt_rounds tokens) (ahead_ofTokens tokens)
  rw [parse_fst, hrun]

theorem exists_derives_of_parse (h : (ofTokens tokens).parse.1 = .ok program) :
    ∃ d, DerivesProgram (kindsBeforeEof tokens) program d ∧ d ≤ maxDepth ∧
      ∀ s ∈ program, s.body.height ≤ maxDepth := by
  rw [parse_fst] at h
  exact sound_statements (ahead_ofTokens tokens) (length_lt_rounds tokens) (Prod.ext h rfl)

end

theorem parse_eq_ok_iff_derives (tokens : List Token) (program : Program) :
    (ofTokens tokens).parse.1 = .ok program ↔
      ∃ depth, DerivesProgram (kindsBeforeEof tokens) program depth ∧ depth ≤ 256 ∧
        ∀ s ∈ program, s.body.height ≤ 256 := by
  constructor
  · exact exists_derives_of_parse
  · rintro ⟨depth, hderives, hdepth, hheight⟩
    exact parse_within_limits hderives hdepth hheight

end Parser
end LineCalc
