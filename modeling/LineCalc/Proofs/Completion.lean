import LineCalc.Proofs.Verdict

/-! Complete statements. A statement is complete as soon as the token behind it is seen, if that
token does not go on with it. Reading a statement takes the tokens of the complete one at the front
of the stream, whatever comes after the token behind it, and reads no other. -/

namespace LineCalc.Parser
open Grammar
variable {α β : Type} {x : Parse α} {p q : Parser} {s s' : Statement} {t t' : Token}
  {body body' : List Token} {rest rest' : List Token.Item}

/-- The tokens `body` are a statement within the limits, and `t` behind them does not go on with
it. -/
structure Completes (body : List Token) (t : Token) (s : Statement) : Prop where
  derives : ∃ d ≤ maxDepth, DerivesStatement (body.map Token.kind) s d
  height_le : s.body.height ≤ maxDepth
  stops : Stops (body.map Token.kind) t.kind

section
variable {P : Token.Kind → Prop} {op? : Token.Kind → Option BinaryOp} {operand : Parse Tree}

def Halts (P : Token.Kind → Prop) (x : Parse α) : Prop :=
  ∀ ⦃p q : Parser⦄ ⦃a : α⦄, p.run x = (.ok a, q) → ∀ t, q.front = .ok t → P t.kind

theorem Halts.map (h : Halts P x) (g : α → β) : Halts P (x >>= fun a => pure (g a)) := by
  intro p q b hrun
  obtain ⟨a, r, hx, hrest⟩ := run_bind_eq_ok.mp hrun
  cases hrest
  exact h hx

theorem Halts.bind {f : α → Parse β} (h : ∀ a, Halts P (f a)) : Halts P (x >>= f) := by
  intro p q b hrun
  obtain ⟨a, r, -, hrest⟩ := run_bind_eq_ok.mp hrun
  exact h a hrest

theorem halts_operations (hoperand : Halts P operand) {left : Expr} {height : Nat} {tree : Tree}
    (hp : ∀ t, p.front = .ok t → P t.kind)
    (hrun : p.run (operations op? operand left height) = (.ok tree, q)) :
    ∀ t, q.front = .ok t → P t.kind ∧ op? t.kind = none := by
  induction hn : maxDepth - height using Nat.strongRecOn generalizing p left height with
  | _ n ih =>
    rw [operations, moves_peek] at hrun
    obtain ⟨t, r, hpeek, hrest⟩ := run_bind_eq_ok.mp hrun
    have hfront : p.front = .ok t := by rw [← run_peek_fst, hpeek]
    cases hop : op? t.kind with
    | none =>
      rw [hop] at hrest
      cases hrest
      intro u hu
      rw [front_of_pending (pending_of_run_peek hpeek)] at hu
      cases hu
      exact ⟨hp t hfront, hop⟩
    | some op =>
      rw [hop] at hrest
      obtain ⟨u, r₁, -, hrest⟩ := run_bind_eq_ok.mp hrest
      obtain ⟨right, r₂, hright, hrest⟩ := run_bind_eq_ok.mp hrest
      dsimp only at hrest
      split at hrest
      · cases hrest
      · exact ih _ (by omega) (hoperand hright) hrest rfl

theorem halts_expression : Halts (fun k => ∀ op : BinaryOp, k ≠ op.kind) expression := by
  have hterm : Halts (fun k => multiplicative? k = none) (term (factor maxDepth)) := by
    intro p q tree hrun u hu
    obtain ⟨left, r, -, hrest⟩ := run_bind_eq_ok.mp hrun
    have hany : Halts (fun _ => True) (factor maxDepth : Parse Tree) := fun _ _ _ _ _ _ => trivial
    exact (halts_operations hany (fun _ _ => trivial) hrest u hu).2
  have hsum : Halts (fun k => ∀ op : BinaryOp, k ≠ op.kind) (sum (factor maxDepth)) := by
    intro p q tree hrun u hu
    obtain ⟨left, r, hleft, hrest⟩ := run_bind_eq_ok.mp hrun
    obtain ⟨hmul, hadd⟩ := halts_operations hterm (hterm hleft) hrest u hu
    intro op hk
    rw [hk] at hmul hadd
    cases op with
    | add | sub => cases hadd
    | mul | div => cases hmul
  exact hsum.map Prod.fst

theorem halts_statement : Halts (fun k => ∀ op : BinaryOp, k ≠ op.kind) statement := by
  unfold statement
  refine .bind fun t => ?_
  split
  · refine .bind fun u => ?_
    split
    · exact .bind fun _ => .bind fun _ => halts_expression.map _
    · exact halts_expression.map _
  · exact halts_expression.map _

end

/-- The tokens with an end of file behind them, so that no step lacks a token. -/
def closed (body : List Token) (t : Token) : List Token := body ++ [t, ⟨.eof, "", .start⟩]

theorem kindsBeforeEof_append (h : ∀ u ∈ body, u.kind ≠ .eof) (ts : List Token) :
    kindsBeforeEof (body ++ ts) = body.map Token.kind ++ kindsBeforeEof ts := by
  induction body with
  | nil => rfl
  | cons u body ih =>
    obtain ⟨hu, hbody⟩ := List.forall_mem_cons.mp h
    rw [List.cons_append, kindsBeforeEof_cons, if_neg hu, ih hbody]
    rfl

theorem ahead_closed (h : ∀ u ∈ body, u.kind ≠ .eof) (t : Token) :
    (ofTokens (closed body t)).Ahead (body.map Token.kind ++ kindsBeforeEof (closed [] t)) := by
  have hahead := ahead_ofTokens (closed body t)
  rwa [closed, kindsBeforeEof_append h] at hahead

theorem headD_kindsBeforeEof (t : Token) : (kindsBeforeEof (closed [] t)).headD .eof = t.kind := by
  change (kindsBeforeEof (t :: _)).headD .eof = _
  rw [kindsBeforeEof_cons]
  split
  · exact Eq.symm ‹_›
  · rfl

theorem Completes.ne_eof (h : Completes body t s) : ∀ u ∈ body, u.kind ≠ .eof := by
  obtain ⟨d, -, hderives⟩ := h.derives
  exact fun u hu => hderives.ne_eof u.kind (List.mem_map_of_mem hu)

theorem Ahead.kinds_eq {ts : List Token} {w : List Token.Kind} (h : p.Ahead w)
    (hp : p.pending = ts.map .ok) : kindsBeforeEof ts = w := by
  obtain ⟨ts', hp', rfl⟩ := h
  have hmap : ts.map (Except.ok : Token → Token.Item) = ts'.map .ok := hp.symm.trans hp'
  rw [(List.map_inj_right fun _ _ => Except.ok.inj).mp hmap]

theorem eq_of_kindsBeforeEof {us vs : List Token} (hus : ∀ u ∈ us, u.kind ≠ .eof)
    (hbody : ∀ u ∈ body, u.kind ≠ .eof) (heq : closed body t = us ++ vs)
    (hkinds : kindsBeforeEof vs = kindsBeforeEof (closed [] t)) : us = body ∧ vs = closed [] t := by
  have hlength : us.length = body.length := by
    have hall := congrArg (List.length ∘ kindsBeforeEof) heq
    rw [Function.comp_apply, Function.comp_apply, closed, kindsBeforeEof_append hbody,
      kindsBeforeEof_append hus, hkinds] at hall
    simpa [closed] using hall.symm
  exact List.append_inj heq.symm hlength

/-- A statement that is read would be read wherever its tokens and the next one come. There is no
other verdict where tokens do not run out: they have an end of file, or end in an error. -/
theorem exists_consumes_of_run {ts : List Token} {more : List Token.Item}
    (hpending : p.pending = ts.map .ok ++ more)
    (hmore : (∃ u ∈ ts, u.kind = .eof) ∨ ∃ e, more = [.error e])
    (hrun : p.run statement = (.ok s, q)) :
    ∃ us vs, ts = us ++ vs ∧ (∀ u ∈ us, u.kind ≠ .eof) ∧ Consumes statement us vs s ∧
      q.pending = vs.map .ok ++ more := by
  have hfails {e : Error} (h : ∃ q', p.run statement = (.error e, q')) : False := by
    obtain ⟨q', hrun'⟩ := h
    cases hrun.symm.trans hrun'
  have hverdict : Verdict (fun _ => True) SpellsStatement ViableStatement statement ts :=
    verdict_statement fun _ _ => trivial
  cases hverdict with
  | refuses us v vs expected heq hx _ =>
    have hfront : p.pending = (us ++ [v]).map .ok ++ (vs.map .ok ++ more) := by
      rw [hpending, heq]
      simp
    exact (hfails (hx hfront)).elim
  | tooDeep v hx _ => exact (hfails (hx hpending)).elim
  | lacks hkind hx =>
    rcases hmore with ⟨u, hu, hk⟩ | ⟨e, rfl⟩
    · exact absurd hk (hkind u hu)
    · exact (hfails (hx hpending)).elim
  | consumes us vs s' heq hus hx _ =>
    rw [heq] at hpending
    obtain ⟨q', hrun', hq'⟩ := hx rfl hpending
    cases hrun.symm.trans hrun'
    exact ⟨us, vs, heq, hus, hx, hq'⟩

/-- A complete statement at the front of the stream is read, whatever comes after the token behind
it. -/
theorem Completes.consumes (h : Completes body t s) : Consumes statement body [t] s := by
  obtain ⟨d, hd, hderives⟩ := h.derives
  have hstops := h.stops
  rw [← headD_kindsBeforeEof t] at hstops
  obtain ⟨q, hrun, hq⟩ := takes_statement hderives hd h.height_le hstops (ahead_closed h.ne_eof t)
  have hpending : (ofTokens (closed body t)).pending = (closed body t).map .ok ++ [] :=
    (List.append_nil _).symm
  have heof : ∃ u ∈ closed body t, u.kind = .eof := ⟨⟨.eof, "", .start⟩, by simp [closed], rfl⟩
  obtain ⟨us, vs, heq, hus, hx, hq'⟩ := exists_consumes_of_run hpending (.inl heof) hrun
  rw [List.append_nil] at hq'
  obtain ⟨rfl, rfl⟩ := eq_of_kindsBeforeEof hus h.ne_eof heq (hq.kinds_eq hq')
  exact fun p ws more hws hp => hx hws hp

theorem completes_of_consumes (hbody : ∀ u ∈ body, u.kind ≠ .eof)
    (h : Consumes statement body [t] s) : Completes body t s := by
  have hhead : (closed [] t).head? = [t].head? := rfl
  have hpending : (ofTokens (closed body t)).pending =
      (body ++ closed [] t).map .ok ++ [] := (List.append_nil _).symm
  obtain ⟨q, hrun, hq⟩ := h hhead hpending
  have hahead := ahead_closed hbody t
  obtain ⟨v, rest, d, hw, hv, hd, hheight, hrest⟩ := sound_statement hahead hrun
  rw [List.append_nil] at hq
  rw [← hrest.kinds_eq hq] at hw
  obtain rfl : body.map Token.kind = v := List.append_cancel_right hw
  refine ⟨⟨d, hd, hv⟩, hheight, ⟨halts_statement hrun t (front_of_pending hq), ?_⟩⟩
  intro name hname hassign
  -- with `=` behind it the identifier would have begun an assignment
  have hkinds : kindsBeforeEof (closed [] t) = [.assign] := by
    change kindsBeforeEof [t, _] = _
    rw [kindsBeforeEof_cons, hassign]
    rfl
  rw [hname, hkinds] at hahead
  obtain ⟨r, hrun', -⟩ := becomes_assignment name [] hahead
  rw [hrun'] at hrun
  obtain ⟨e, _, -, hresult⟩ := run_bind_eq_ok.mp hrun
  cases hresult
  rw [hname] at hv
  cases hv

/-- At the front of a stream there is at most one complete statement. -/
theorem Completes.unique (h : Completes body t s) (h' : Completes body' t' s')
    (heq : (body ++ [t]).map .ok ++ rest = (body' ++ [t']).map .ok ++ rest') :
    body = body' ∧ t = t' ∧ s = s' ∧ rest = rest' := by
  have hpending : (Parser.mk ((body ++ [t]).map .ok ++ rest) [] .start []).pending =
      (body ++ [t]).map .ok ++ rest := rfl
  obtain ⟨q, hrun, hq⟩ := h.consumes rfl hpending
  obtain ⟨q', hrun', hq'⟩ := h'.consumes rfl (hpending.trans heq)
  cases hrun.symm.trans hrun'
  obtain ⟨ht, rfl⟩ := List.cons.inj (hq.symm.trans hq')
  obtain rfl := Except.ok.inj ht
  have hbody := (List.map_inj_right fun _ _ => Except.ok.inj).mp (List.append_cancel_right heq)
  exact ⟨List.append_cancel_right hbody, rfl, rfl, rfl⟩

theorem Completes.exists_cons (h : Completes body t s) :
    ∃ u later, body = u :: later ∧ ¬ u.kind.isTerminator := by
  obtain ⟨d, -, hderives⟩ := h.derives
  have hinner := hderives.isInner_headD []
  cases body with
  | nil => cases hinner
  | cons u later =>
    refine ⟨u, later, rfl, fun hu => ?_⟩
    change IsInner u.kind at hinner
    rcases isTerminator_iff.mp hu with hk | hk <;> rw [hk] at hinner <;> cases hinner

end LineCalc.Parser
