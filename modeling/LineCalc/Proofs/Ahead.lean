import LineCalc.Proofs.Grammar
import LineCalc.Proofs.Steps

/-! What the parser sees of a list of tokens: the kinds up to the end of file. A missing end of
file is as good as one that is there. -/

namespace LineCalc.Parser
variable {p q : Parser} {k : Token.Kind} {w : List Token.Kind}

/-- The kinds of the tokens before the first end of file, or of all tokens if there is none. -/
def kindsBeforeEof (tokens : List Token) : List Token.Kind :=
  (tokens.map Token.kind).takeWhile (· ≠ .eof)

theorem kindsBeforeEof_cons (t : Token) (tokens : List Token) :
    kindsBeforeEof (t :: tokens) =
      if t.kind = .eof then [] else t.kind :: kindsBeforeEof tokens := by
  simp only [kindsBeforeEof, List.map_cons, List.takeWhile_cons, decide_eq_true_eq, ite_not]

/-- Only tokens are to come, and those before the end of file are of the kinds `w`. -/
def Ahead (p : Parser) (w : List Token.Kind) : Prop :=
  ∃ tokens : List Token, p.pending = tokens.map .ok ∧ kindsBeforeEof tokens = w

namespace Ahead

theorem front_eq (h : p.Ahead w) : ∃ t, p.front = .ok t ∧ t.kind = w.headD .eof := by
  obtain ⟨tokens, hp, rfl⟩ := h
  cases tokens with
  | nil => exact ⟨⟨.eof, "", p.finish⟩, by rw [front, hp]; rfl, rfl⟩
  | cons t tokens =>
    refine ⟨t, front_of_pending hp, ?_⟩
    rw [kindsBeforeEof_cons]
    split
    · assumption
    · rfl

theorem of_pending_cons {t : Token} (h : p.Ahead w) (ht : p.front = .ok t)
    (hq : q.pending = .ok t :: p.pending.tail) : q.Ahead w := by
  obtain ⟨tokens, hp, rfl⟩ := h
  cases tokens with
  | nil =>
    rw [front, hp] at ht
    obtain rfl := Except.ok.inj ht
    exact ⟨[⟨.eof, "", p.finish⟩], by rw [hq, hp]; rfl, by rw [kindsBeforeEof_cons, if_pos rfl]; rfl⟩
  | cons u tokens =>
    rw [front_of_pending hp] at ht
    obtain rfl := Except.ok.inj ht
    exact ⟨u :: tokens, by rw [hq, hp]; rfl, rfl⟩

theorem eof_not_mem (h : p.Ahead w) : .eof ∉ w := by
  obtain ⟨tokens, -, rfl⟩ := h
  intro hmem
  simpa using List.all_eq_true.mp List.all_takeWhile _ hmem

theorem peek (h : p.Ahead w) :
    ∃ t q, p.run peek = (.ok t, q) ∧ t.kind = w.headD .eof ∧ q.Ahead w := by
  obtain ⟨t, ht, hk⟩ := h.front_eq
  obtain ⟨q, hq, hqp, -⟩ := run_peek_of_ok ht
  exact ⟨t, q, hq, hk, h.of_pending_cons ht hqp⟩

theorem advance (h : p.Ahead w) :
    ∃ t q, p.run advance = (.ok t, q) ∧ t.kind = w.headD .eof ∧ (w ≠ [] → q.Ahead w.tail) := by
  obtain ⟨t, ht, hk⟩ := h.front_eq
  obtain ⟨q, hq, hqp⟩ := p.run_advance
  refine ⟨t, q, by rw [hq, ht], hk, fun hw => ?_⟩
  obtain ⟨tokens, hp, rfl⟩ := h
  cases tokens with
  | nil => exact absurd rfl hw
  | cons u tokens =>
    refine ⟨tokens, by rw [hqp, hp]; rfl, ?_⟩
    rw [kindsBeforeEof_cons] at hw ⊢
    split at hw
    · exact absurd rfl hw
    · rw [if_neg ‹_›, List.tail_cons]

theorem advance_cons (h : p.Ahead (k :: w)) :
    ∃ t q, p.run Parser.advance = (.ok t, q) ∧ t.kind = k ∧ q.Ahead w := by
  obtain ⟨t, q, hq, hk, hqw⟩ := h.advance
  exact ⟨t, q, hq, hk, hqw (List.cons_ne_nil k w)⟩

theorem peekSecond (h : p.Ahead (k :: w)) :
    ∃ t q, p.run peekSecond = (.ok t, q) ∧ t.kind = w.headD .eof ∧ q.Ahead (k :: w) := by
  obtain ⟨tokens, hp, hkinds⟩ := h
  cases tokens with
  | nil => cases hkinds
  | cons t tokens =>
    rw [kindsBeforeEof_cons] at hkinds
    split at hkinds
    · cases hkinds
    obtain ⟨rfl, rfl⟩ := List.cons.inj hkinds
    obtain ⟨pos, q, hq, hqp⟩ := run_peekSecond hp
    cases tokens with
    | nil =>
      refine ⟨⟨.eof, "", pos⟩, q, hq, rfl, [t, ⟨.eof, "", pos⟩], hqp, ?_⟩
      rw [kindsBeforeEof_cons, if_neg ‹_›, kindsBeforeEof_cons, if_pos rfl]
      rfl
    | cons u tokens =>
      refine ⟨u, q, hq, ?_, t :: u :: tokens, hqp, ?_⟩
      · rw [kindsBeforeEof_cons]
        split
        · assumption
        · rfl
      · rw [kindsBeforeEof_cons t, if_neg ‹_›]

theorem report (h : p.Ahead w) (events : List Event) : ({ p with events } : Parser).Ahead w := h

end Ahead

theorem isTerminator_iff : k.isTerminator ↔ k = .newline ∨ k = .eof := by
  cases k <;> simp [Token.Kind.isTerminator]

theorem stops_of_isTerminator {v : List Token.Kind} (h : k.isTerminator) : Grammar.Stops v k := by
  rcases isTerminator_iff.mp h with rfl | rfl
  · exact ⟨fun op => by cases op <;> simp [BinaryOp.kind], by simp⟩
  · exact ⟨fun op => by cases op <;> simp [BinaryOp.kind], by simp⟩

theorem additive?_eq_some {op : BinaryOp} :
    additive? k = some op ↔ (op = .add ∨ op = .sub) ∧ k = op.kind := by
  cases k <;> cases op <;> simp [additive?, BinaryOp.kind]

theorem additive?_eq_none (h : ∀ op : BinaryOp, k ≠ op.kind) : additive? k = none :=
  Option.eq_none_iff_forall_ne_some.mpr fun op hop => h op (additive?_eq_some.mp hop).2

theorem multiplicative?_eq_some {op : BinaryOp} :
    multiplicative? k = some op ↔ (op = .mul ∨ op = .div) ∧ k = op.kind := by
  cases k <;> cases op <;> simp [multiplicative?, BinaryOp.kind]

theorem multiplicative?_eq_none (h : ∀ op : BinaryOp, k ≠ op.kind) : multiplicative? k = none :=
  Option.eq_none_iff_forall_ne_some.mpr fun op hop => h op (multiplicative?_eq_some.mp hop).2

theorem run_statements_nil (hp : p.Ahead []) (rounds index : Nat) :
    ∃ q, p.run (statements rounds index) = (.ok [], q) ∧ q.Ahead [] := by
  cases rounds with
  | zero => exact ⟨p, rfl, hp⟩
  | succ rounds =>
    obtain ⟨t, p₁, hpeek, hk, hp₁⟩ := hp.peek
    unfold statements
    rw [moves_peek, run_bind_of_ok hpeek, hk]
    exact ⟨p₁, rfl, hp₁⟩

end LineCalc.Parser
