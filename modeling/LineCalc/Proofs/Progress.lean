import Mathlib.Data.List.Basic
import LineCalc.Proofs.Steps

/-! Parsing again and again. A parse that fails has used up an item of its stream, so that calls
one after the other come to an end of file, and there they stay. The measure leaves the ends of
file out: a dry stream makes up as many of them as are asked for. -/

namespace LineCalc.Parser
variable {α β : Type} {start p q : Parser}

def isInner : Token.Item → Bool
  | .ok t => t.kind ≠ .eof
  | .error _ => true

def left (p : Parser) : List Token.Item := p.pending.filter isInner

def StopsAtEof (items : List Token.Item) : Prop := ∀ item ∈ items.dropLast, isInner item

/-- What was taken from the stream between two states of a parser goes no further than an end of
file, where the tokens that were looked at before count as well. -/
def ReadsTo (p q : Parser) : Prop :=
  ∃ taken, p.unread = taken ++ q.unread ∧ StopsAtEof (p.buffer.map .ok ++ taken)

structure Broken (start q : Parser) : Prop where
  buffer : q.buffer.length ≤ 1
  sublist : q.left.Sublist start.left
  shorter : q.left.length < start.left.length
  reads : ReadsTo start q

/-- Where the items seen since `start` have gone: the tokens used, those kept in the buffer, and
the item `lost` for which the parse fails. The buffer may end in a made-up end of file. -/
structure Account (start : Parser) (used kept : List Token) (lost : List Token.Item) (q : Parser) :
    Prop where
  inner : ∀ t ∈ used, t.kind ≠ .eof
  seen : ∃ taken, start.unread = taken ++ q.unread ∧
    start.buffer.map .ok ++ taken = (used ++ kept).map .ok ++ lost
  buffer : q.buffer = kept ∨ q.unread = [] ∧ ∃ pos, q.buffer = kept ++ [⟨.eof, "", pos⟩]

/-- A parse that began at `start` goes on, with at least `count` tokens used. -/
def Going (start : Parser) (lookahead count : Nat) (p : Parser) : Prop :=
  ∃ used kept, Account start used kept [] p ∧ count ≤ used.length ∧ p.buffer.length ≤ lookahead

def Advances (start p : Parser) (x : Parse α) (Q : α → Parser → Prop) : Prop :=
  match p.run x with
  | (.ok a, q) => Q a q
  | (.error _, q) => Broken start q

section
variable {used kept : List Token} {lost : List Token.Item} {t : Token} {unread : List Token.Item}
variable {lookahead count : Nat}

theorem isInner_ok : isInner (.ok t) = true ↔ t.kind ≠ .eof := by
  simp [isInner]

theorem filter_isInner_used (h : ∀ t ∈ used, t.kind ≠ .eof) :
    (used.map Except.ok).filter isInner = used.map Except.ok := by
  refine List.filter_eq_self.mpr fun item hitem => ?_
  obtain ⟨t, ht, rfl⟩ := List.mem_map.mp hitem
  exact isInner_ok.mpr (h t ht)

theorem Account.left_eq (h : Account start used kept lost q) :
    q.left = (kept.map Except.ok).filter isInner ++ q.unread.filter isInner := by
  rcases h.buffer with hb | ⟨-, pos, hb⟩
  · rw [left, pending, hb, List.filter_append]
  · rw [left, pending, hb, List.map_append, List.filter_append, List.filter_append]
    simp [isInner]

theorem Account.start_left_eq (h : Account start used kept lost q) :
    start.left = used.map Except.ok ++ ((kept.map Except.ok).filter isInner ++
      (lost.filter isInner ++ q.unread.filter isInner)) := by
  obtain ⟨taken, hunread, hseen⟩ := h.seen
  rw [left, pending, hunread, ← List.append_assoc, hseen, List.map_append]
  simp only [List.filter_append, List.append_assoc, filter_isInner_used h.inner]

theorem stopsAtEof_of_length {items : List Token.Item} (h : items.length ≤ 1) :
    StopsAtEof items := by
  intro item hitem
  have hlength := List.length_pos_of_mem hitem
  rw [List.length_dropLast] at hlength
  omega

theorem StopsAtEof.append {items : List Token.Item} (h : StopsAtEof items)
    (hused : ∀ t ∈ used, t.kind ≠ .eof) : StopsAtEof (used.map .ok ++ items) := by
  have hinner : ∀ item ∈ used.map Except.ok, isInner item := by
    intro item hitem
    obtain ⟨t, ht, rfl⟩ := List.mem_map.mp hitem
    exact isInner_ok.mpr (hused t ht)
  intro item hitem
  rcases List.eq_nil_or_concat' items with rfl | ⟨most, last, rfl⟩
  · rw [List.append_nil] at hitem
    exact hinner item ((List.dropLast_sublist _).subset hitem)
  · rw [← List.append_assoc, List.dropLast_concat] at hitem
    rcases List.mem_append.mp hitem with hitem | hitem
    · exact hinner item hitem
    · exact h item (by rwa [List.dropLast_concat])

theorem Account.reads (h : Account start used kept lost q)
    (hstop : StopsAtEof (kept.map .ok ++ lost)) : ReadsTo start q := by
  obtain ⟨taken, hunread, hseen⟩ := h.seen
  refine ⟨taken, hunread, ?_⟩
  rw [hseen, List.map_append, List.append_assoc]
  exact hstop.append h.inner

theorem Account.broken (h : Account start used kept lost q) (hbuffer : q.buffer.length ≤ 1)
    (hstop : StopsAtEof (kept.map .ok ++ lost))
    (hgone : 0 < used.length + (lost.filter isInner).length) : Broken start q := by
  refine ⟨hbuffer, ?_, ?_, h.reads hstop⟩
  · rw [h.left_eq, h.start_left_eq]
    refine List.Sublist.trans ?_ (List.sublist_append_right _ _)
    exact (List.Sublist.refl _).append (List.sublist_append_right _ _)
  · rw [h.left_eq, h.start_left_eq]
    simp only [List.length_append, List.length_map]
    omega

theorem Account.kept_length (h : Account start used kept lost q) :
    kept.length ≤ q.buffer.length := by
  rcases h.buffer with hb | ⟨-, pos, hb⟩
  · exact Nat.le_of_eq (congrArg List.length hb.symm)
  · rw [hb, List.length_append]
    omega

theorem Account.stopsAtEof (h : Account start used kept [] q) (hbuffer : q.buffer.length ≤ 1) :
    StopsAtEof (kept.map .ok ++ []) := by
  refine stopsAtEof_of_length ?_
  rw [List.append_nil, List.length_map]
  exact Nat.le_trans h.kept_length hbuffer

theorem Going.broken (h : Going start 1 count p) (hcount : 0 < count) : Broken start p := by
  obtain ⟨used, kept, haccount, hused, hbuffer⟩ := h
  exact haccount.broken hbuffer (haccount.stopsAtEof hbuffer) (by omega)

theorem Going.reads (h : Going start 1 count p) : ReadsTo start p := by
  obtain ⟨used, kept, haccount, -, hbuffer⟩ := h
  exact haccount.reads (haccount.stopsAtEof hbuffer)

theorem Going.buffer_length (h : Going start lookahead count p) : p.buffer.length ≤ lookahead := by
  obtain ⟨_, _, -, -, hlength⟩ := h
  exact hlength

theorem Going.mono {lookahead' count' : Nat} (h : Going start lookahead count p)
    (hlookahead : lookahead ≤ lookahead') (hcount : count' ≤ count) :
    Going start lookahead' count' p := by
  obtain ⟨used, kept, haccount, hused, hbuffer⟩ := h
  exact ⟨used, kept, haccount, by omega, by omega⟩

theorem Going.events (h : Going start lookahead count p) (events : List Event) :
    Going start lookahead count { p with events := events } := by
  obtain ⟨used, kept, ⟨hinner, hseen, hbuffer⟩, hused, hlength⟩ := h
  exact ⟨used, kept, ⟨hinner, hseen, hbuffer⟩, hused, hlength⟩

theorem Going.count_le (h : Going start lookahead count p) : count ≤ start.left.length := by
  obtain ⟨used, kept, haccount, hused, -⟩ := h
  rw [haccount.start_left_eq, List.length_append, List.length_map]
  omega

theorem Going.use {buffer : List Token} (h : Going start (lookahead + 1) count p)
    (hbuffer : p.buffer = t :: buffer) (ht : t.kind ≠ .eof) :
    Going start lookahead (count + 1) { p with buffer := buffer } := by
  obtain ⟨used, kept, haccount, hused, hlength⟩ := h
  have hinner : ∀ u ∈ used ++ [t], u.kind ≠ .eof := by
    intro u hu
    rcases List.mem_append.mp hu with hu | hu
    · exact haccount.inner u hu
    · rwa [List.mem_singleton.mp hu]
  -- a made-up end of file is not the token used
  obtain ⟨kept', rfl, hrest⟩ : ∃ kept', kept = t :: kept' ∧
      (buffer = kept' ∨ p.unread = [] ∧ ∃ pos, buffer = kept' ++ [⟨.eof, "", pos⟩]) := by
    rcases haccount.buffer with hb | ⟨hunread, pos, hb⟩
    · exact ⟨buffer, hb.symm.trans hbuffer, .inl rfl⟩
    · cases kept with
      | nil =>
        rw [hbuffer, List.nil_append] at hb
        exact absurd (congrArg Token.kind (List.cons.inj hb).1) ht
      | cons u kept' =>
        rw [hbuffer, List.cons_append] at hb
        obtain ⟨rfl, hrest⟩ := List.cons.inj hb
        exact ⟨kept', rfl, .inr ⟨hunread, pos, hrest⟩⟩
  rw [hbuffer, List.length_cons] at hlength
  refine ⟨used ++ [t], kept', ⟨hinner, ?_, hrest⟩, ?_, Nat.le_of_succ_le_succ hlength⟩
  · rw [List.append_assoc]
    exact haccount.seen
  · rw [List.length_append, List.length_singleton]
    omega

theorem Going.drop (h : Going start 1 count p) (hcount : 0 < count) :
    Broken start { p with buffer := [] } := by
  obtain ⟨used, kept, haccount, hused, hlength⟩ := h
  have hdrop : Account start used [] (kept.map .ok) { p with buffer := [] } := by
    refine ⟨haccount.inner, ?_, .inl rfl⟩
    obtain ⟨taken, hunread, hseen⟩ := haccount.seen
    exact ⟨taken, hunread, by simpa using hseen⟩
  have hkept := haccount.kept_length
  refine hdrop.broken (Nat.zero_le 1) (stopsAtEof_of_length ?_) (by omega)
  rw [List.map_nil, List.nil_append, List.length_map]
  omega

theorem Advances.bind {x : Parse α} {f : α → Parse β} {R : α → Parser → Prop}
    {Q : β → Parser → Prop} (hx : Advances start p x R)
    (hf : ∀ a q, R a q → Advances start q (f a) Q) : Advances start p (x >>= f) Q := by
  unfold Advances at hx ⊢
  rcases hrun : p.run x with ⟨e | a, q⟩
  · rw [hrun] at hx
    rwa [run_bind_of_error hrun]
  · rw [hrun] at hx
    rw [run_bind_of_ok hrun]
    exact hf a q hx

theorem Advances.imp {x : Parse α} {Q R : α → Parser → Prop} (hx : Advances start p x Q)
    (h : ∀ a q, Q a q → R a q) : Advances start p x R := by
  unfold Advances at hx ⊢
  rcases hrun : p.run x with ⟨e | a, q⟩ <;> rw [hrun] at hx
  · exact hx
  · exact h a q hx

theorem Advances.bind_congr {x : Parse α} {f g : α → Parse β} {R : α → Parser → Prop}
    (hx : Advances start p x R) (h : ∀ a q, R a q → q.run (f a) = q.run (g a)) :
    p.run (x >>= f) = p.run (x >>= g) := by
  unfold Advances at hx
  rcases hrun : p.run x with ⟨e | a, q⟩ <;> rw [hrun] at hx
  · rw [run_bind_of_error hrun, run_bind_of_error hrun]
  · rw [run_bind_of_ok hrun, run_bind_of_ok hrun]
    exact h a q hx

theorem advances_pull (h : Going start 1 count p) (hinner : ∀ t ∈ p.buffer, t.kind ≠ .eof) :
    Advances start p pull fun t q => q.buffer = p.buffer ∧
      Going start (p.buffer.length + 1) count { q with buffer := p.buffer ++ [t] } := by
  obtain ⟨used, kept, haccount, hused, hlength⟩ := h
  have hkept : p.buffer = kept := by
    rcases haccount.buffer with hb | ⟨-, pos, hb⟩
    · exact hb
    · exact absurd rfl (hinner ⟨.eof, "", pos⟩ (by simp [hb]))
  obtain ⟨taken, hunread, hseen⟩ := haccount.seen
  unfold Advances pull
  rw [run_get_bind]
  rcases hu : p.unread with _ | ⟨e | t, unread⟩
  · refine ⟨rfl, used, kept, ⟨haccount.inner, haccount.seen, .inr ⟨hu, p.finish, ?_⟩⟩, hused, ?_⟩
    · rw [hkept]
    · simp
  · have hlost : Account start used kept [.error e] { p with unread } := by
      refine ⟨haccount.inner, ⟨taken ++ [.error e], ?_, ?_⟩, .inl hkept⟩
      · rw [hunread, hu, List.append_assoc]
        rfl
      · rw [← List.append_assoc, hseen, List.append_nil]
    have hlast : StopsAtEof [.error e] := stopsAtEof_of_length (Nat.le_refl _)
    exact hlost.broken hlength (hlast.append (hkept ▸ hinner)) (Nat.succ_pos _)
  · refine ⟨rfl, used, kept ++ [t], ⟨haccount.inner, ?_, .inl (by rw [hkept])⟩, hused, ?_⟩
    · refine ⟨taken ++ [.ok t], ?_, ?_⟩
      · rw [hunread, hu, List.append_assoc]
        rfl
      · rw [← List.append_assoc, hseen]
        simp
    · simp

theorem advances_peek_of_buffer {buffer : List Token} {Q : Token → Parser → Prop}
    (hbuffer : p.buffer = t :: buffer) (h : Q t p) : Advances start p peek Q := by
  unfold Advances peek
  rw [run_get_bind, hbuffer]
  exact h

theorem advances_peek (h : Going start 1 count p) :
    Advances start p peek fun t q => Going start 1 count q ∧ q.buffer = [t] := by
  rcases hb : p.buffer with _ | ⟨t, buffer⟩
  · have hpull := advances_pull h (by simp [hb])
    rw [hb] at hpull
    unfold Advances peek
    rw [run_get_bind, hb]
    exact hpull.bind fun t q hq => ⟨hq.2, rfl⟩
  · refine advances_peek_of_buffer hb ⟨h, ?_⟩
    obtain ⟨_, _, -, -, hlength⟩ := h
    rw [hb, List.length_cons] at hlength
    have hnil : buffer = [] := List.length_eq_zero_iff.mp (by omega)
    rw [hb, hnil]

theorem advances_peekSecond (h : Going start 1 count p) (hbuffer : p.buffer = [t])
    (ht : t.kind ≠ .eof) :
    Advances start p peekSecond fun u q => Going start 2 count q ∧ q.buffer = [t, u] := by
  have hpull := advances_pull h (by simpa [hbuffer] using ht)
  rw [hbuffer] at hpull
  have hpeek : Advances start p peek fun u q => u = t ∧ q = p :=
    advances_peek_of_buffer hbuffer ⟨rfl, rfl⟩
  refine hpeek.bind ?_
  rintro _ _ ⟨rfl, rfl⟩
  unfold Advances
  rw [run_get_bind, hbuffer]
  exact hpull.bind fun u q hq => ⟨hq.2, rfl⟩

theorem advances_advance_of_buffer {buffer : List Token} {Q : Token → Parser → Prop}
    (hbuffer : p.buffer = t :: buffer) (h : Q t { p with buffer }) :
    Advances start p advance Q := by
  unfold Advances advance
  rw [run_get_bind, hbuffer]
  exact h

/-- The next token may be used up once a token has been used, or if it is known to be no end of
file. -/
def Starts (start : Parser) (count : Nat) (p : Parser) : Prop :=
  0 < count ∧ Going start 1 count p ∨
    ∃ t buffer, p.buffer = t :: buffer ∧ t.kind ≠ .eof ∧ Going start 2 count p

theorem Going.starts (h : Going start lookahead (count + 1) p) (hlookahead : lookahead ≤ 1) :
    Starts start (count + 1) p :=
  .inl ⟨Nat.succ_pos count, h.mono hlookahead (Nat.le_refl _)⟩

theorem advances_advance (h : Starts start count p) :
    Advances start p advance fun t q => Broken start q ∧
      (t.kind ≠ .eof → Going start 1 (count + 1) q) := by
  rcases h with ⟨hcount, hgoing⟩ | ⟨t, buffer, hbuffer, ht, hgoing⟩
  · -- whether the token is looked at already or not, it is gone from the buffer afterwards
    have hspent (t : Token) (r : Parser) (hr : Going start 1 count r) (hbuffer : r.buffer = [t]) :
        Broken start { r with buffer := [] } ∧
          (t.kind ≠ .eof → Going start 1 (count + 1) { r with buffer := [] }) :=
      ⟨hr.drop hcount, fun ht => (Going.use hr hbuffer ht).mono (Nat.zero_le 1) (Nat.le_refl _)⟩
    rcases hb : p.buffer with _ | ⟨t, buffer⟩
    · have hpull := advances_pull hgoing (by simp [hb])
      rw [hb] at hpull
      unfold Advances advance
      rw [run_get_bind, hb]
      refine hpull.imp ?_
      rintro t q ⟨hq, hgoing'⟩
      have hq' : { q with buffer := [] } = q := by rw [← hq]
      have hend := hspent t _ hgoing' rfl
      rwa [hq'] at hend
    · have hlength := hgoing.buffer_length
      rw [hb, List.length_cons] at hlength
      have hnil : buffer = [] := List.length_eq_zero_iff.mp (by omega)
      rw [hnil] at hb
      exact advances_advance_of_buffer hb (hspent t p hgoing hb)
  · have huse := hgoing.use hbuffer ht
    exact advances_advance_of_buffer hbuffer ⟨huse.broken (Nat.succ_pos _), fun _ => huse⟩

theorem advances_advance_of_inner {buffer : List Token} (h : Going start (lookahead + 1) count p)
    (hbuffer : p.buffer = t :: buffer) (ht : t.kind ≠ .eof) :
    Advances start p advance fun _ q => Going start lookahead (count + 1) q ∧ q.buffer = buffer :=
  advances_advance_of_buffer hbuffer ⟨h.use hbuffer ht, rfl⟩

theorem Advances.discard {x : Parse α} {Q : Parser → Prop}
    (h : Advances start p x fun _ q => Q q) : Advances start p (discard x) fun _ q => Q q :=
  h.bind fun _ _ hq => hq

def Operand (start : Parser) (x : Parse α) : Prop :=
  ∀ ⦃p count⦄, Starts start count p → Advances start p x fun _ q => Going start 1 (count + 1) q

section
variable {op? : Token.Kind → Option BinaryOp} {operand : Parse Tree}

theorem advances_operations (hop : op? .eof = none) (hoperand : Operand start operand)
    (left : Expr) (height : Nat) (h : Going start 1 count p) (hcount : 0 < count) :
    Advances start p (operations op? operand left height) fun _ q => Going start 1 count q := by
  induction hn : maxDepth - height using Nat.strongRecOn
    generalizing left height p count with
  | _ n ih =>
    rw [operations]
    refine (advances_peek h).bind ?_
    rintro t q ⟨hq, hbuffer⟩
    cases hkind : op? t.kind with
    | none => exact hq
    | some op =>
      have ht : t.kind ≠ .eof := fun heof => by simp [heof, hop] at hkind
      refine (advances_advance_of_inner hq hbuffer ht).bind ?_
      rintro u q' ⟨hq', _⟩
      refine (hoperand (hq'.starts (Nat.zero_le 1))).bind fun right r hr => ?_
      dsimp only
      split
      · exact hr.broken (Nat.succ_pos _)
      · have hrest := ih _ (by omega) (.binary op left right.1) (max height right.2 + 1) hr
          (Nat.succ_pos _) rfl
        exact hrest.imp fun _ _ hend => hend.mono (Nat.le_refl 1) (by omega)

theorem Operand.chain (hop : op? .eof = none) (h : Operand start operand) :
    Operand start (chain op? operand) := by
  intro p count hp
  exact (h hp).bind fun tree _ hq => advances_operations hop h tree.1 tree.2 hq (Nat.succ_pos _)

theorem Operand.sum (h : Operand start operand) : Operand start (sum operand) := by
  have hterm : Operand start (term operand) := h.chain rfl
  exact hterm.chain rfl

end

theorem advances_closeParen (h : Going start 1 count p) (hcount : 0 < count) :
    Advances start p closeParen fun _ q => Going start 1 count q := by
  refine (advances_peek h).bind ?_
  rintro t q ⟨hq, hbuffer⟩
  split
  · rename_i ht
    refine (advances_advance_of_inner hq hbuffer (by simp [ht])).discard.imp fun _ _ hr => ?_
    exact hr.1.mono (Nat.zero_le 1) (Nat.le_succ count)
  · exact hq.broken hcount

theorem operand_factor (room : Nat) : Operand start (factor room) := by
  induction room using Nat.strongRecOn with
  | _ room ih =>
    intro p count hp
    unfold factor
    refine (advances_advance hp).bind ?_
    rintro t q ⟨hbroken, hgoing⟩
    cases hk : t.kind with
    | number x => exact hgoing (by simp [hk])
    | identifier name => exact hgoing (by simp [hk])
    | minus =>
      cases room with
      | zero => exact hbroken
      | succ room =>
        have hstarts := (hgoing (by simp [hk])).starts (Nat.le_refl 1)
        refine (ih room (Nat.lt_succ_self room) hstarts).bind fun tree r hr => ?_
        dsimp only
        split
        · exact hr.broken (Nat.succ_pos _)
        · exact hr.mono (Nat.le_refl 1) (Nat.le_succ _)
    | leftParen =>
      cases room with
      | zero => exact hbroken
      | succ room =>
        have hstarts := (hgoing (by simp [hk])).starts (Nat.le_refl 1)
        refine ((ih room (Nat.lt_succ_self room)).sum hstarts).bind fun tree r hr => ?_
        refine (advances_closeParen hr (Nat.succ_pos _)).bind fun _ _ hend => ?_
        exact hend.mono (Nat.le_refl 1) (Nat.le_succ _)
    | _ => exact hbroken

theorem operand_expression : Operand start expression := by
  intro p count hp
  exact ((operand_factor maxDepth).sum hp).bind fun _ _ hq => hq

theorem advances_statement (h : Going start 1 count p) (hbuffer : p.buffer = [t])
    (ht : t.kind ≠ .eof) :
    Advances start p statement fun _ q => Going start 1 (count + 1) q := by
  have hexpr : Operand start (expression >>= fun e => pure (Statement.expr e)) :=
    fun p count hp => (operand_expression hp).bind fun _ _ hq => hq
  have hpeek : Advances start p peek fun u q => u = t ∧ q = p :=
    advances_peek_of_buffer hbuffer ⟨rfl, rfl⟩
  refine hpeek.bind fun u q hu => ?_
  obtain ⟨rfl, rfl⟩ := hu
  split
  · refine (advances_peekSecond h hbuffer ht).bind ?_
    rintro t' q' ⟨hq', hbuffer'⟩
    split
    · rename_i hassign
      refine (advances_advance_of_inner hq' hbuffer' ht).discard.bind ?_
      rintro _ r ⟨hr, hrest⟩
      have ht' : t'.kind ≠ .eof := by simp [hassign]
      refine (advances_advance_of_inner hr hrest ht').discard.bind ?_
      rintro _ r' ⟨hr', _⟩
      refine (operand_expression (hr'.starts (Nat.zero_le 1))).bind fun _ _ hend => ?_
      exact hend.mono (Nat.le_refl 1) (by omega)
    · exact hexpr (.inr ⟨_, _, hbuffer', ht, hq'⟩)
  · exact hexpr (.inr ⟨_, _, hbuffer, ht, h.mono (Nat.le_succ 1) (Nat.le_refl _)⟩)

theorem advances_endStatement (h : Going start 1 count p) (hcount : 0 < count) :
    Advances start p endStatement fun _ q => Going start 1 count q := by
  refine (advances_peek h).bind ?_
  rintro t q ⟨hq, hbuffer⟩
  split
  · exact hq.broken hcount
  · split
    · rename_i ht
      refine (advances_advance_of_inner hq hbuffer (by simp [ht])).discard.imp fun _ _ hr => ?_
      exact hr.1.mono (Nat.zero_le 1) (Nat.le_succ count)
    · exact hq

/-- The rounds suffice: each one uses up a token, and with what is left of them the stream has no
token left for a further round. -/
theorem advances_statements (rounds index : Nat) (h : Going start 1 count p)
    (hrounds : start.left.length < count + rounds) :
    Advances start p (statements rounds index) fun _ q =>
      Going start 1 0 q ∧ ∃ t, q.buffer = [t] ∧ t.kind = .eof := by
  induction rounds generalizing p count index with
  | zero =>
    have hcount := h.count_le
    omega
  | succ rounds ih =>
    unfold statements
    refine (advances_peek h).bind ?_
    rintro t q ⟨hq, hbuffer⟩
    split
    · rename_i ht
      exact ⟨hq.mono (Nat.le_refl 1) (Nat.zero_le count), t, hbuffer, ht⟩
    · rename_i ht
      refine (advances_advance_of_inner hq hbuffer (by simp [ht])).discard.bind fun _ r hr => ?_
      exact ih index (hr.1.mono (Nat.zero_le 1) (Nat.le_refl _)) (by omega)
    · rename_i ht _
      refine (advances_statement hq hbuffer ht).bind fun s r hr => ?_
      have hreport : Advances start r (report (.statementParsed index s))
          fun _ r' => Going start 1 (count + 1) r' := hr.events _
      refine hreport.bind fun _ r' hr' => ?_
      refine (advances_endStatement hr' (Nat.succ_pos _)).bind fun _ r'' hr'' => ?_
      exact (ih (index + 1) hr'' (by omega)).bind fun _ _ hend => hend

theorem run_statements_congr {rounds rounds' : Nat} (index : Nat) (h : Going start 1 count p)
    (hrounds : start.left.length < count + rounds) (hrounds' : start.left.length < count + rounds') :
    p.run (statements rounds index) = p.run (statements rounds' index) := by
  induction rounds generalizing p count index rounds' with
  | zero =>
    have hcount := h.count_le
    omega
  | succ rounds ih =>
    have hcount := h.count_le
    obtain ⟨rounds', rfl⟩ : ∃ n, rounds' = n + 1 := ⟨rounds' - 1, by omega⟩
    unfold statements
    refine (advances_peek h).bind_congr ?_
    rintro t q ⟨hq, hbuffer⟩
    cases hk : t.kind with
    | eof => rfl
    | newline =>
      have hadvance := advances_advance_of_inner hq hbuffer (by simp [hk])
      refine hadvance.discard.bind_congr fun _ r hr => ?_
      have hr : Going start 1 (count + 1) r := hr.1.mono (Nat.zero_le 1) (Nat.le_refl _)
      exact ih index hr (by omega) (by omega)
    | _ =>
      refine (advances_statement hq hbuffer (by simp [hk])).bind_congr fun s r hr => ?_
      rw [moves_report, run_report_bind, run_report_bind]
      have hreported := advances_endStatement (hr.events (.statementParsed index s :: r.events))
        (Nat.succ_pos count)
      refine hreported.bind_congr fun _ r' hr' => ?_
      have hlater : r'.run (statements rounds (index + 1)) =
          r'.run (statements rounds' (index + 1)) := ih (index + 1) hr' (by omega) (by omega)
      rw [run_bind, run_bind, hlater]

theorem going_self (h : p.buffer.length ≤ lookahead) : Going p lookahead 0 p :=
  ⟨[], p.buffer, ⟨by simp, ⟨[], by simp⟩, .inl rfl⟩, Nat.zero_le _, h⟩

theorem left_length_lt (p : Parser) : p.left.length < p.unread.length + p.buffer.length + 1 := by
  have hfilter := List.length_filter_le isInner p.pending
  simp only [pending, List.length_append, List.length_map] at hfilter
  rw [left, pending]
  omega

theorem parse_eq_of_rounds {rounds : Nat} (h : p.buffer.length ≤ 1)
    (hrounds : p.left.length < rounds) : p.parse = p.run (programIn rounds) := by
  have hlength := p.left_length_lt
  rw [parse_eq_programIn, programIn, programIn, run_bind, run_bind,
    run_statements_congr 0 (going_self h) (by omega) (Nat.lt_of_lt_of_eq hrounds (Nat.zero_add _).symm)]

theorem advances_program (h : p.buffer.length ≤ 1) :
    Advances p p program fun _ q => Going p 1 0 q ∧ ∃ t, q.buffer = [t] ∧ t.kind = .eof := by
  have hrounds : p.left.length < 0 + (p.unread.length + p.buffer.length + 1) := by
    rw [Nat.zero_add]
    exact p.left_length_lt
  have hrun : Advances p p (statements (p.unread.length + p.buffer.length + 1) 0 >>= fun read =>
      report (.programParsed read.length) >>= fun _ => pure read)
      fun _ q => Going p 1 0 q ∧ ∃ t, q.buffer = [t] ∧ t.kind = .eof :=
    (advances_statements _ 0 (going_self h) hrounds).bind fun _ _ hq => ⟨hq.1.events _, hq.2⟩
  exact hrun

end

theorem parse_broken_or_eof (h : p.buffer.length ≤ 1) :
    (∃ e, p.parse.1 = .error e ∧ Broken p p.parse.2) ∨
      ∃ program t, p.parse.1 = .ok program ∧ p.parse.2.buffer = [t] ∧ t.kind = .eof ∧
        ReadsTo p p.parse.2 := by
  have hrun := advances_program h
  unfold Advances at hrun
  have hparse : p.run program = p.parse := rfl
  rcases hresult : p.parse with ⟨e | program, q⟩ <;> rw [hparse, hresult] at hrun
  · exact .inl ⟨e, rfl, hrun⟩
  · obtain ⟨hgoing, t, hbuffer, ht⟩ := hrun
    exact .inr ⟨program, t, rfl, hbuffer, ht, hgoing.reads⟩

theorem parse_of_eof {t : Token} (hbuffer : p.buffer = [t]) (ht : t.kind = .eof) :
    p.parse = (.ok [], { p with events := .programParsed 0 :: p.events }) := by
  have hpeek : p.run peek = (.ok t, p) := by
    unfold peek
    rw [run_get_bind, hbuffer]
    rfl
  have hread : p.run (statements (p.unread.length + p.buffer.length + 1) 0) = (.ok [], p) := by
    rw [statements, moves_peek, run_bind_of_ok hpeek, ht]
    rfl
  exact run_bind_of_ok hread

def after (p : Parser) : Nat → Parser
  | 0 => p
  | calls + 1 => (p.after calls).parse.2

theorem after_succ (p : Parser) (calls : Nat) : p.after (calls + 1) = p.parse.2.after calls := by
  induction calls with
  | zero => rfl
  | succ calls ih => rw [after, ih, after]

theorem buffer_after (h : p.buffer.length ≤ 1) (calls : Nat) :
    (p.after calls).buffer.length ≤ 1 := by
  induction calls with
  | zero => exact h
  | succ calls ih =>
    rcases parse_broken_or_eof ih with ⟨_, -, hbroken⟩ | ⟨_, t, -, hbuffer, -⟩
    · exact hbroken.buffer
    · rw [after, hbuffer]
      exact Nat.le_refl 1

theorem exists_parse_ok (h : p.buffer.length ≤ 1) :
    ∃ calls ≤ p.left.length, (∀ n < calls, ∃ e, (p.after n).parse.1 = .error e) ∧
      ∃ program, (p.after calls).parse.1 = .ok program := by
  induction hn : p.left.length using Nat.strongRecOn generalizing p with
  | _ n ih =>
    rcases parse_broken_or_eof h with ⟨e, herror, hbroken⟩ | ⟨program, t, hok, -⟩
    · obtain ⟨calls, hcalls, hbefore, hok⟩ :=
        ih _ (hn ▸ hbroken.shorter) hbroken.buffer rfl
      have hshorter := hbroken.shorter
      refine ⟨calls + 1, by omega, fun m hm => ?_, by rwa [after_succ]⟩
      cases m with
      | zero => exact ⟨e, herror⟩
      | succ m =>
        rw [after_succ]
        exact hbefore m (by omega)
    · exact ⟨0, Nat.zero_le n, by simp, program, hok⟩

theorem eof_after {calls n : Nat} (h : p.buffer.length ≤ 1)
    (hok : ∃ program, (p.after calls).parse.1 = .ok program) (hn : calls < n) :
    ∃ t, (p.after n).buffer = [t] ∧ t.kind = .eof := by
  induction hn with
  | refl =>
    obtain ⟨program, hok⟩ := hok
    have hcall := parse_broken_or_eof (buffer_after h calls)
    rcases hcall with ⟨e, herror, -⟩ | ⟨_, t, -, hbuffer, ht, -⟩
    · cases hok.symm.trans herror
    · exact ⟨t, hbuffer, ht⟩
  | step _ ih =>
    obtain ⟨t, hbuffer, ht⟩ := ih
    refine ⟨t, ?_, ht⟩
    rw [after, parse_of_eof hbuffer ht]
    exact hbuffer

/-- Every parse that fails uses up an item other than an end of file, and none reads on behind an
end of file. So a parse succeeds, after no more failures than there are items. Later ones find
nothing more, and leave the stream alone. -/
theorem parses_come_to_end (items : List Token.Item) :
    let p (n : Nat) := Parser.after { unread := items } n
    (∀ n e, (p n).parse.1 = .error e →
      (p (n + 1)).left.Sublist (p n).left ∧ (p (n + 1)).left.length < (p n).left.length) ∧
    (∀ n, ReadsTo (p n) (p (n + 1))) ∧
    ∃ k ≤ items.length, (∀ n < k, ∃ e, (p n).parse.1 = .error e) ∧
      (∃ program, (p k).parse.1 = .ok program) ∧
      ∀ n > k, (p n).parse.1 = .ok [] ∧ (p (n + 1)).unread = (p n).unread := by
  have hfresh : (Parser.mk items [] .start []).buffer.length ≤ 1 := Nat.zero_le 1
  have hbuffer (n : Nat) : (Parser.after { unread := items } n).buffer.length ≤ 1 :=
    buffer_after hfresh n
  refine ⟨fun n e herror => ?_, fun n => ?_, ?_⟩
  · rcases parse_broken_or_eof (hbuffer n) with ⟨_, -, hbroken⟩ | ⟨_, _, hok, -⟩
    · exact ⟨hbroken.sublist, hbroken.shorter⟩
    · cases hok.symm.trans herror
  · rcases parse_broken_or_eof (hbuffer n) with ⟨_, -, hbroken⟩ | ⟨_, _, -, -, -, hreads⟩
    · exact hbroken.reads
    · exact hreads
  · obtain ⟨k, hk, hbefore, hok⟩ := exists_parse_ok hfresh
    refine ⟨k, Nat.le_trans hk (List.length_filter_le _ items), hbefore, hok, fun n hn => ?_⟩
    obtain ⟨t, hlast, ht⟩ := eof_after hfresh hok hn
    have hparse := parse_of_eof hlast ht
    exact ⟨congrArg Prod.fst hparse, congrArg (fun r => r.2.unread) hparse⟩

end LineCalc.Parser
