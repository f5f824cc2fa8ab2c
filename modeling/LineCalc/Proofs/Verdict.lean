import LineCalc.Proofs.Acceptance

/-! What a step makes of the tokens in front of it, and how many of them it needs for that. A step
reads a phrase, refuses a token, meets a limit, or lacks a token where the stream breaks off. No
verdict depends on what comes after the tokens that it speaks of. -/

namespace LineCalc.Parser
open Grammar
variable {α β : Type} {x : Parse α} {f : α → Parse β} {a : α} {b : β} {e : Error}
  {t u : Token} {us vs ws ts : List Token}

/-- The step takes the tokens `us` and gives `a`. Of what follows only the first token matters, and
that is the first of `vs`. -/
def Consumes (x : Parse α) (us vs : List Token) (a : α) : Prop :=
  ∀ ⦃p : Parser⦄ ⦃ws : List Token⦄ ⦃more : List Token.Item⦄, ws.head? = vs.head? →
    p.pending = (us ++ ws).map .ok ++ more →
    ∃ q, p.run x = (.ok a, q) ∧ q.pending = ws.map .ok ++ more

def Refuses (x : Parse α) (us : List Token) (e : Error) : Prop :=
  ∀ ⦃p : Parser⦄ ⦃more : List Token.Item⦄, p.pending = us.map .ok ++ more →
    ∃ q, p.run x = (.error e, q)

/-- With the tokens `us` in front the step needs one more, and an error there is its own error. -/
def Lacks (x : Parse α) (us : List Token) : Prop :=
  ∀ ⦃p : Parser⦄ ⦃e : Error⦄ ⦃more : List Token.Item⦄,
    p.pending = us.map .ok ++ .error e :: more → ∃ q, p.run x = (.error e, q)

theorem consumes_pure (a : α) (vs : List Token) : Consumes (pure a) [] vs a :=
  fun p _ _ _ hp => ⟨p, rfl, hp⟩

theorem consumes_report (event : Event) (vs : List Token) : Consumes (report event) [] vs () :=
  fun _ _ _ _ hp => ⟨_, rfl, hp⟩

theorem refuses_throw (e : Error) (us : List Token) : Refuses (throw e : Parse α) us e :=
  fun p _ _ => ⟨p, rfl⟩

theorem consumes_advance (t : Token) (vs : List Token) : Consumes advance [t] vs t :=
  fun _ _ _ _ hp => run_advance_of_pending hp

theorem lacks_advance : Lacks advance [] := by
  intro p e more hp
  obtain ⟨q, hrun, -⟩ := run_advance_of_pending hp
  exact ⟨q, hrun⟩

theorem consumes_peek (t : Token) (vs : List Token) : Consumes peek [] (t :: vs) t := by
  intro p ws more hws hp
  obtain ⟨ws, rfl⟩ := List.head?_eq_some_iff.mp hws
  obtain ⟨q, hrun, hq⟩ := run_peek_of_pending hp
  exact ⟨q, hrun, hq.trans hp⟩

theorem lacks_peek : Lacks peek [] := by
  intro p e more hp
  obtain ⟨q, hrun, -⟩ := run_peek_of_error (front_of_pending hp)
  exact ⟨q, hrun⟩

theorem Refuses.bind (hx : Refuses x us e) : Refuses (x >>= f) us e := by
  intro p more hp
  obtain ⟨q, hrun⟩ := hx hp
  exact ⟨q, run_bind_of_error hrun⟩

theorem Lacks.bind (hx : Lacks x us) : Lacks (x >>= f) us := by
  intro p e more hp
  obtain ⟨q, hrun⟩ := hx hp
  exact ⟨q, run_bind_of_error hrun⟩

theorem Consumes.bind (hx : Consumes x us (vs ++ ws) a) (hf : Consumes (f a) vs ws b) :
    Consumes (x >>= f) (us ++ vs) ws b := by
  intro p ws' more hws hp
  have hhead : (vs ++ ws').head? = (vs ++ ws).head? := by
    rw [List.head?_append, List.head?_append, hws]
  rw [List.append_assoc] at hp
  obtain ⟨q, hrun, hq⟩ := hx hhead hp
  obtain ⟨r, hrun', hr⟩ := hf hws hq
  exact ⟨r, (run_bind_of_ok hrun).trans hrun', hr⟩

theorem Consumes.bind_refuses (hx : Consumes x us vs a) (hws : ws.head? = vs.head?)
    (hf : Refuses (f a) ws e) : Refuses (x >>= f) (us ++ ws) e := by
  intro p more hp
  obtain ⟨q, hrun, hq⟩ := hx hws hp
  obtain ⟨r, hrun'⟩ := hf hq
  exact ⟨r, (run_bind_of_ok hrun).trans hrun'⟩

theorem Consumes.bind_lacks (hx : Consumes x us vs a) (hf : Lacks (f a) vs) :
    Lacks (x >>= f) (us ++ vs) := by
  intro p e more hp
  obtain ⟨q, hrun, hq⟩ := hx rfl hp
  obtain ⟨r, hrun'⟩ := hf hq
  exact ⟨r, (run_bind_of_ok hrun).trans hrun'⟩

/-- The verdict of a step on the tokens `ts`. What is read must be spelled, what stands in front of
a refused token viable, and a token at which a limit is met must be named. -/
inductive Verdict (named : Token → Prop) (spells : List Token → List Token → α → Prop)
    (viable : List Token → Prop) (x : Parse α) (ts : List Token) : Prop
  | consumes (us vs : List Token) (a : α) : ts = us ++ vs → (∀ t ∈ us, t.kind ≠ .eof) →
    Consumes x us vs a → spells us vs a → Verdict named spells viable x ts
  | refuses (us : List Token) (t : Token) (vs : List Token) (expected : String) :
    ts = us ++ t :: vs → Refuses x (us ++ [t]) (t.unexpected expected) → viable us →
    Verdict named spells viable x ts
  | tooDeep (t : Token) : Refuses x ts (Parser.tooDeep t) → named t →
    Verdict named spells viable x ts
  | lacks : (∀ t ∈ ts, t.kind ≠ .eof) → Lacks x ts → Verdict named spells viable x ts

namespace Verdict
variable {named : Token → Prop} {S : List Token → List Token → α → Prop} {V W : List Token → Prop}
  {R : List Token → List Token → β → Prop}

theorem bind (hx : Verdict named S V x ts) (hV : ∀ us, V us → W us)
    (hf : ∀ us vs a, ts = us ++ vs → S us vs a →
      Verdict named (fun us' => R (us ++ us')) (fun us' => W (us ++ us')) (f a) vs) :
    Verdict named R W (x >>= f) ts := by
  cases hx with
  | refuses us t vs expected hts hx hviable =>
    exact .refuses us t vs expected hts hx.bind (hV us hviable)
  | tooDeep t hx hnamed => exact .tooDeep t hx.bind hnamed
  | lacks hts hx => exact .lacks hts hx.bind
  | consumes us vs a hts hus hx hspells =>
    have hverdict := hf us vs a hts hspells
    subst hts
    cases hverdict with
    | consumes us' vs' b hvs hus' hstep hspells' =>
      subst hvs
      exact .consumes (us ++ us') vs' b (List.append_assoc ..).symm
        (List.forall_mem_append.mpr ⟨hus, hus'⟩) (hx.bind hstep) hspells'
    | refuses us' t vs' expected hvs hstep hviable =>
      subst hvs
      have hhead : (us' ++ [t]).head? = (us' ++ t :: vs').head? := by simp
      have hrefuses := hx.bind_refuses hhead hstep
      rw [← List.append_assoc] at hrefuses
      exact .refuses (us ++ us') t vs' expected (List.append_assoc ..).symm hrefuses hviable
    | tooDeep t hstep hnamed => exact .tooDeep t (hx.bind_refuses rfl hstep) hnamed
    | lacks hvs hstep => exact .lacks (List.forall_mem_append.mpr ⟨hus, hvs⟩) (hx.bind_lacks hstep)

theorem pure (hS : S [] ts a) : Verdict named S V (pure a) ts :=
  .consumes [] ts a rfl (by simp) (consumes_pure a ts) hS

theorem peek_bind {f : Token → Parse β}
    (h : ∀ t vs, ts = t :: vs → Verdict named R W (f t) ts) :
    Verdict named R W (peek >>= f) ts := by
  cases ts with
  | nil => exact .lacks (by simp) lacks_peek.bind
  | cons t vs =>
    have hpeek : Verdict named (fun us vs' a => us = [] ∧ vs' = t :: vs ∧ a = t) W peek (t :: vs) :=
      .consumes [] (t :: vs) t rfl (by simp) (consumes_peek t vs) ⟨rfl, rfl, rfl⟩
    refine hpeek.bind (fun _ => id) ?_
    rintro _ _ _ - ⟨rfl, rfl, rfl⟩
    exact h _ vs rfl

theorem advance_bind {f : Token → Parse β} (ht : t.kind ≠ .eof)
    (h : Verdict named (fun us => R (t :: us)) (fun us => W (t :: us)) (f t) vs) :
    Verdict named R W (advance >>= f) (t :: vs) := by
  have hadvance : Verdict named (fun us vs' a => us = [t] ∧ vs' = vs ∧ a = t) W advance (t :: vs) :=
    .consumes [t] vs t rfl (by simpa using ht) (consumes_advance t vs) ⟨rfl, rfl, rfl⟩
  refine hadvance.bind (fun _ => id) ?_
  rintro _ _ _ - ⟨rfl, rfl, rfl⟩
  exact h

theorem mono {S' : List Token → List Token → α → Prop} (h : Verdict named S V x ts)
    (hS : ∀ us vs a, S us vs a → S' us vs a) (hV : ∀ us, V us → W us) :
    Verdict named S' W x ts := by
  cases h with
  | consumes us vs a hts hus hx hspells => exact .consumes us vs a hts hus hx (hS us vs a hspells)
  | refuses us t vs expected hts hx hviable =>
    exact .refuses us t vs expected hts hx (hV us hviable)
  | tooDeep t hx hnamed => exact .tooDeep t hx hnamed
  | lacks hts hx => exact .lacks hts hx

end Verdict

def Spells (N : Phrase) (us _ : List Token) (tree : Tree) : Prop :=
  ∃ d, Derives N (us.map Token.kind) tree.1 d

def Viable (N : Phrase) (us : List Token) : Prop :=
  ∃ w e d, Derives N (us.map Token.kind ++ w) e d

def Judges (N : Phrase) (x : Parse Tree) : Prop :=
  ∀ ⦃named : Token → Prop⦄ ⦃ts : List Token⦄, (∀ t ∈ ts, named t) →
    Verdict named (Spells N) (Viable N) x ts

section
variable {M N : Phrase} {op? : Token.Kind → Option BinaryOp} {operand : Parse Tree}
  {named : Token → Prop}

theorem verdict_operations (hN : IsChain M N op?) (hoperand : Judges M operand)
    (hts : ∀ t ∈ ts, named t) {before : List Token} {left : Expr} {d : Nat}
    (hleft : Derives N (before.map Token.kind) left d) (height : Nat) :
    Verdict named (fun us => Spells N (before ++ us)) (fun us => Viable N (before ++ us))
      (operations op? operand left height) ts := by
  -- the tree on the left grows in every round, up to the limit
  induction hn : maxDepth - height using Nat.strongRecOn generalizing ts before left d height with
  | _ n ih =>
    rw [operations]
    refine .peek_bind fun t vs heq => ?_
    subst heq
    cases hop : op? t.kind with
    | none => exact .pure ⟨d, by simpa using hleft⟩
    | some op =>
      have hkind : t.kind ≠ .eof := fun hk => by
        rw [hk, hN.eof] at hop
        cases hop
      obtain ⟨ht, hvs⟩ := List.forall_mem_cons.mp hts
      refine .advance_bind hkind ((hoperand hvs).bind ?_ ?_)
      · rintro us ⟨w, e, d', hw⟩
        exact ⟨w, .binary op left e, _, by simpa using hN.next hop hleft hw⟩
      · rintro us vs' right rfl ⟨d', hright⟩
        dsimp only
        split
        · exact .tooDeep t (refuses_throw _ _) ht
        · have hnext : Derives N ((before ++ t :: us).map Token.kind)
              (.binary op left right.1) (max d d') := by
            simpa using hN.next hop hleft hright
          have hrec := ih _ (by omega) (List.forall_mem_append.mp hvs).2 hnext
            (max height right.2 + 1) rfl
          simpa only [List.append_assoc, List.cons_append] using hrec

theorem judges_chain (hN : IsChain M N op?) (hoperand : Judges M operand) :
    Judges N (chain op? operand) := by
  intro named ts hts
  refine (hoperand hts).bind ?_ ?_
  · rintro us ⟨w, e, d, hw⟩
    exact ⟨w, e, d, hN.first hw⟩
  · rintro us vs tree rfl ⟨d, htree⟩
    exact verdict_operations hN hoperand (List.forall_mem_append.mp hts).2 (hN.first htree) tree.2

end

theorem judges_sum {x : Parse Tree} (h : Judges .factor x) : Judges .expression (sum x) :=
  judges_chain isChain_expression (judges_chain isChain_term h)

section
variable {named : Token → Prop}

theorem verdict_closeParen : Verdict named (fun us _ _ => us.map Token.kind = [.rightParen])
    (· = []) closeParen ts := by
  unfold closeParen
  refine .peek_bind fun t vs heq => ?_
  subst heq
  split
  · rename_i ht
    refine .advance_bind (by rw [ht]; nofun) (.pure ?_)
    rw [List.map_singleton, ht]
  · exact .refuses [] t vs _ rfl (refuses_throw _ _) rfl

theorem viable_nil (N : Phrase) : Viable N [] := by
  have hfactor := Derives.identifier "x"
  cases N with
  | factor => exact ⟨_, _, _, hfactor⟩
  | term => exact ⟨_, _, _, .factor hfactor⟩
  | expression => exact ⟨_, _, _, .term (.factor hfactor)⟩

theorem Viable.parens (h : Viable .expression us) (ht : t.kind = .leftParen) :
    Viable .factor (t :: us) := by
  obtain ⟨w, e, d, hw⟩ := h
  exact ⟨w ++ [.rightParen], e, d + 1, by simpa [ht] using Derives.parens hw⟩

theorem judges_factor (room : Nat) : Judges .factor (factor room) := by
  induction room using Nat.strongRecOn with
  | _ room ih =>
    intro named ts hts
    unfold factor
    cases ts with
    | nil => exact .lacks (by simp) lacks_advance.bind
    | cons t vs =>
      obtain ⟨ht, hvs⟩ := List.forall_mem_cons.mp hts
      -- a token that begins no factor is refused as soon as it is taken
      have hrefuse {expected : String} {f : Token → Parse Tree}
          (hf : f t = throw (t.unexpected expected)) :
          Verdict named (Spells .factor) (Viable .factor) (advance >>= f) (t :: vs) := by
        refine .refuses [] t vs expected rfl ?_ (viable_nil .factor)
        refine (consumes_advance t []).bind_refuses rfl ?_
        rw [hf]
        exact refuses_throw _ _
      cases hk : t.kind with
      | number x =>
        refine .advance_bind (by simp [hk]) ?_
        rw [hk]
        exact .pure ⟨0, by simpa [hk] using .number x⟩
      | identifier name =>
        refine .advance_bind (by simp [hk]) ?_
        rw [hk]
        exact .pure ⟨0, by simpa [hk] using .identifier name⟩
      | minus =>
        refine .advance_bind (by simp [hk]) ?_
        rw [hk]
        cases room with
        | zero => exact .tooDeep t (refuses_throw _ _) ht
        | succ room =>
          refine (ih room (Nat.lt_succ_self room) hvs).bind ?_ ?_
          · rintro us ⟨w, e, d, hw⟩
            exact ⟨w, .unary .neg e, d + 1, by simpa [hk] using Derives.negation hw⟩
          · rintro us vs' operand rfl ⟨d, hoperand⟩
            dsimp only
            split
            · exact .tooDeep t (refuses_throw _ _) ht
            · exact .pure ⟨d + 1, by simpa [hk] using Derives.negation hoperand⟩
      | leftParen =>
        refine .advance_bind (by simp [hk]) ?_
        rw [hk]
        cases room with
        | zero => exact .tooDeep t (refuses_throw _ _) ht
        | succ room =>
          refine (judges_sum (ih room (Nat.lt_succ_self room)) hvs).bind ?_ ?_
          · exact fun us hus => hus.parens hk
          · rintro us vs' inner rfl ⟨d, hinner⟩
            refine verdict_closeParen.bind ?_ ?_
            · rintro _ rfl
              exact Viable.parens ⟨[], _, d, by simpa using hinner⟩ hk
            · rintro us' vs'' _ rfl hclose
              exact .pure ⟨d + 1, by simpa [hk, hclose] using Derives.parens hinner⟩
      | _ => exact hrefuse (by rw [hk])

def SpellsStatement (us _ : List Token) (s : Statement) : Prop :=
  ∃ d, DerivesStatement (us.map Token.kind) s d

def ViableStatement (us : List Token) : Prop :=
  ∃ w s d, DerivesStatement (us.map Token.kind ++ w) s d

theorem verdict_expression (hts : ∀ t ∈ ts, named t) :
    Verdict named (fun us _ e => ∃ d, Derives .expression (us.map Token.kind) e d)
      (Viable .expression) expression ts := by
  refine (judges_sum (judges_factor maxDepth) hts).bind (fun _ => id) ?_
  rintro us vs tree rfl ⟨d, htree⟩
  exact .pure ⟨d, by simpa using htree⟩

theorem verdict_expr (hts : ∀ t ∈ ts, named t) :
    Verdict named SpellsStatement (Viable .expression)
      (expression >>= fun e => pure (.expr e)) ts := by
  refine (verdict_expression hts).bind (fun _ => id) ?_
  rintro us vs e rfl ⟨d, he⟩
  exact .pure ⟨d, by simpa using .expr he⟩

theorem not_refuses_identifier {name : String} (ht : t.kind = .identifier name) :
    ¬ Refuses (expression >>= fun e => pure (Statement.expr e)) [t] e := by
  intro h
  have hderives : Derives .expression [.identifier name] (.var name) 0 :=
    .term (.factor (.identifier name))
  have hend : ∀ op : BinaryOp, List.headD [] Token.Kind.eof ≠ op.kind :=
    (stops_of_isTerminator (v := []) rfl).no_operator
  have htakes : Takes (expression >>= fun e => pure (Statement.expr e)) [.identifier name]
      (.expr (.var name)) [] :=
    (takes_expression (v := [.identifier name]) hderives (Nat.zero_le _) (Nat.zero_le _) hend).bind
      (.pure _ _)
  have hahead : (ofTokens [t]).Ahead [.identifier name] := by
    have := ahead_ofTokens [t]
    rwa [kindsBeforeEof_cons, ht, if_neg (by nofun)] at this
  obtain ⟨q, hrun, -⟩ := htakes hahead
  have hpending : (ofTokens [t]).pending = [t].map .ok ++ [] := rfl
  obtain ⟨q', hrun'⟩ := h hpending
  cases hrun.symm.trans hrun'

theorem verdict_expr_of_identifier {name : String} (ht : t.kind = .identifier name)
    (hts : ∀ u ∈ t :: vs, named u) :
    Verdict named SpellsStatement (fun us => us ≠ [] ∧ ViableStatement us)
      (expression >>= fun e => pure (.expr e)) (t :: vs) := by
  cases verdict_expr hts with
  | consumes us vs' s heq hus hx hspells => exact .consumes us vs' s heq hus hx hspells
  | tooDeep u hx hu => exact .tooDeep u hx hu
  | lacks heof hx => exact .lacks heof hx
  | refuses us u vs' expected heq hx hviable =>
    refine .refuses us u vs' expected heq hx ⟨?_, ?_⟩
    · rintro rfl
      obtain ⟨rfl, -⟩ := List.cons.inj heq
      exact not_refuses_identifier ht hx
    · obtain ⟨w, e, d, hw⟩ := hviable
      exact ⟨w, .expr e, d, .expr hw⟩

theorem run_peekSecond_bind {p : Parser} {f : Token → Parse β} {rest : List Token.Item}
    (hp : p.pending = .ok t :: .ok u :: rest) :
    ∃ q : Parser, p.run (peekSecond >>= f) = q.run (f u) ∧ q.pending = p.pending := by
  obtain ⟨pos, q, hrun, hq⟩ := run_peekSecond hp
  exact ⟨q, run_bind_of_ok hrun, hq.trans hp.symm⟩

/-- A look at the second token changes no verdict that goes past the first one. -/
theorem Verdict.peekSecond_bind {f : Token → Parse β} {R : List Token → List Token → β → Prop}
    {W : List Token → Prop} (hR : ∀ us vs b, R us vs b → us ≠ []) (hW : ∀ us, W us → us ≠ [])
    (h : Verdict named R W (f u) (t :: u :: vs)) :
    Verdict named R W (peekSecond >>= f) (t :: u :: vs) := by
  cases h with
  | consumes us vs' b heq hus hx hspells =>
    refine .consumes us vs' b heq hus ?_ hspells
    intro p ws more hws hp
    obtain ⟨t', us, rfl⟩ := List.exists_cons_of_ne_nil (hR us vs' b hspells)
    obtain ⟨rfl, htail⟩ := List.cons.inj heq
    -- the second token is one of those taken, or the first behind them
    have hhead : (us ++ ws).head? = some u := by
      rw [List.head?_append, hws, ← List.head?_append]
      exact congrArg List.head? htail.symm
    obtain ⟨zs, hzs⟩ := List.head?_eq_some_iff.mp hhead
    rw [List.cons_append, hzs] at hp
    obtain ⟨q, hrun, hq⟩ := run_peekSecond_bind hp
    rw [hrun]
    exact hx hws (by rw [hq, hp, List.cons_append, hzs])
  | refuses us t' vs' expected heq hx hviable =>
    refine .refuses us t' vs' expected heq ?_ hviable
    intro p more hp
    obtain ⟨t, us, rfl⟩ := List.exists_cons_of_ne_nil (hW us hviable)
    obtain ⟨rfl, htail⟩ := List.cons.inj heq
    have hhead : (us ++ [t']).head? = some u := by
      have hvs : (us ++ t' :: vs').head? = some u := congrArg List.head? htail.symm
      rwa [List.head?_append, List.head?_cons] at hvs ⊢
    obtain ⟨zs, hzs⟩ := List.head?_eq_some_iff.mp hhead
    rw [List.cons_append, hzs] at hp
    obtain ⟨q, hrun, hq⟩ := run_peekSecond_bind hp
    rw [hrun]
    exact hx (by rw [hq, hp, List.cons_append, hzs])
  | tooDeep t' hx ht' =>
    refine .tooDeep t' ?_ ht'
    intro p more hp
    obtain ⟨q, hrun, hq⟩ := run_peekSecond_bind hp
    rw [hrun]
    exact hx (hq.trans hp)
  | lacks heof hx =>
    refine .lacks heof ?_
    intro p e more hp
    obtain ⟨q, hrun, hq⟩ := run_peekSecond_bind hp
    rw [hrun]
    exact hx (hq.trans hp)

theorem lacks_peekSecond (t : Token) : Lacks peekSecond [t] := by
  intro p e more hp
  obtain ⟨pos, q, hrun, -⟩ := run_peekSecond hp
  exact ⟨q, hrun⟩

theorem discard_bind (x : Parse α) (f : Unit → Parse β) :
    (discard x >>= f) = x >>= fun _ => f () := by
  change ((x >>= fun _ => pure ()) >>= f) = _
  rw [bind_assoc]
  rfl

theorem SpellsStatement.ne_nil {s : Statement} (h : SpellsStatement us vs s) : us ≠ [] := by
  rintro rfl
  obtain ⟨d, h⟩ := h
  generalize hw : List.map Token.kind [] = w at h
  cases h with
  | assign he => cases hw
  | expr he => exact he.ne_nil hw.symm

theorem verdict_statement (hts : ∀ t ∈ ts, named t) :
    Verdict named SpellsStatement ViableStatement statement ts := by
  unfold statement
  refine .peek_bind fun t vs heq => ?_
  subst heq
  split
  · rename_i name hk
    have hkind : t.kind ≠ .eof := by rw [hk]; nofun
    cases vs with
    | nil => exact .lacks (by simpa using hkind) (lacks_peekSecond t).bind
    | cons u vs =>
      refine Verdict.mono (V := fun us => us ≠ [] ∧ ViableStatement us) ?_ (fun _ _ _ => id)
        (fun _ => And.right)
      refine .peekSecond_bind (fun _ _ _ => SpellsStatement.ne_nil) (fun _ => And.left) ?_
      split
      · rename_i hu
        obtain ⟨-, -, hrest⟩ : named t ∧ named u ∧ ∀ t ∈ vs, named t := by simpa using hts
        rw [discard_bind, discard_bind]
        refine .advance_bind hkind (.advance_bind (by rw [hu]; nofun) ?_)
        refine (verdict_expression hrest).bind ?_ ?_
        · rintro us ⟨w, e, d, hw⟩
          exact ⟨List.cons_ne_nil _ _, w, .assign name e, d, by simpa [hk, hu] using .assign hw⟩
        · rintro us vs' e rfl ⟨d, he⟩
          exact .pure ⟨d, by simpa [hk, hu] using .assign he⟩
      · exact verdict_expr_of_identifier hk hts
  · refine (verdict_expr hts).mono (fun _ _ _ => id) ?_
    rintro us ⟨w, e, d, hw⟩
    exact ⟨w, .expr e, d, .expr hw⟩

theorem verdict_endStatement :
    Verdict named (fun us vs _ => us.map Token.kind = [.newline] ∨
      us = [] ∧ ∃ t vs', vs = t :: vs' ∧ t.kind = .eof) (· = []) endStatement ts := by
  unfold endStatement
  refine .peek_bind fun t vs heq => ?_
  subst heq
  split
  · exact .refuses [] t vs _ rfl (refuses_throw _ _) rfl
  · rename_i hk
    split
    · rename_i hnewline
      refine .advance_bind (by rw [hnewline]; nofun) (.pure (.inl ?_))
      rw [List.map_singleton, hnewline]
    · rename_i hnewline
      have heof : t.kind = .eof := by
        exact (isTerminator_iff.mp (by simpa using hk)).resolve_left hnewline
      exact .pure (.inr ⟨rfl, t, vs, rfl, heof⟩)

end

end LineCalc.Parser
