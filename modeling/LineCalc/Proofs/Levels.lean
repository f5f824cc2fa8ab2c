import LineCalc.Proofs.Again
import LineCalc.Proofs.Verdict

/-! The tokens at which the limits are met. A limit is met at a parenthesis or sign that has too
many of them around it, or at a sign or operator whose tree is too high. Where a token stands is
told by the grammar: the tokens in front of it begin a program, and break off where a phrase is due,
inside the parentheses and signs that are open there. -/

namespace LineCalc

def BinaryOp.phrase : BinaryOp → Grammar.Phrase
  | .add | .sub => .expression
  | .mul | .div => .term

def BinaryOp.operand : BinaryOp → Grammar.Phrase
  | .add | .sub => .term
  | .mul | .div => .factor

namespace Grammar

inductive Lines : List Token → Prop
  | nil : Lines []
  | blank {us t} : Lines us → t.kind = .newline → Lines (us ++ [t])
  | line {us vs t s d} : Lines us → DerivesStatement (vs.map Token.kind) s d →
    t.kind = .newline → Lines (us ++ vs ++ [t])

/-- Behind the tokens a phrase is due, inside the open parentheses and signs of a path, the
outermost first. -/
inductive Due : List Token → Phrase → List Token → Prop
  | statement {us} : Lines us → Due us .expression []
  | value {us x t name} : Lines us → x.kind = .identifier name → t.kind = .assign →
    Due (us ++ [x, t]) .expression []
  | first {us path} (op : BinaryOp) : Due us op.phrase path → Due us op.operand path
  | next {us vs t path l d} (op : BinaryOp) : Due us op.phrase path →
    Derives op.phrase (vs.map Token.kind) l d → t.kind = op.kind →
    Due (us ++ vs ++ [t]) op.operand path
  | sign {us t path} : Due us .factor path → t.kind = .minus →
    Due (us ++ [t]) .factor (path ++ [t])
  | paren {us t path} : Due us .factor path → t.kind = .leftParen →
    Due (us ++ [t]) .expression (path ++ [t])

def EndsPhrase (N : Phrase) (rest : List Token.Item) : Prop :=
  ∀ (t : Token) (op : BinaryOp), rest.head? = some (.ok t) → t.kind = op.kind → op.phrase ≠ N

/-- The token is a parenthesis or sign, and ends the path of those that are open behind it. -/
inductive Opens (items : List Token.Item) : Token → List Token → Prop
  | intro {us t rest path} : items = us.map .ok ++ .ok t :: rest → Due us .factor path →
    t.kind = .leftParen ∨ t.kind = .minus → Opens items t (path ++ [t])

/-- The token is the sign or operator at the root of a tree, which the phrases beside it spell. -/
inductive Heads (items : List Token.Item) : Token → Expr → Prop
  | sign {us t vs rest path e d} : items = (us ++ t :: vs).map .ok ++ rest →
    Due us .factor path → t.kind = .minus → Derives .factor (vs.map Token.kind) e d →
    Heads items t (.unary .neg e)
  | operator {us vs t ws rest path l r d d'} (op : BinaryOp) :
    items = (us ++ vs ++ t :: ws).map .ok ++ rest → Due us op.phrase path →
    Derives op.phrase (vs.map Token.kind) l d → t.kind = op.kind →
    Derives op.operand (ws.map Token.kind) r d' → EndsPhrase op.operand rest →
    Heads items t (.binary op l r)

structure Within (limit : Nat) (items : List Token.Item) : Prop where
  path : ∀ t path, Opens items t path → path.length ≤ limit
  tree : ∀ t e, Heads items t e → e.height ≤ limit

theorem Derives.height_lt_length {N : Phrase} {w : List Token.Kind} {e : Expr} {d : Nat}
    (h : Derives N w e d) : e.height < w.length := by
  induction h with
  | number x => exact Nat.zero_lt_one
  | identifier name => exact Nat.zero_lt_one
  | negation _ ih => exact Nat.succ_lt_succ ih
  | parens _ ih =>
    rw [List.length_cons, List.length_append]
    omega
  | factor _ ih => exact ih
  | term _ ih => exact ih
  | product _ _ _ ihl ihr =>
    rw [List.length_append, List.length_cons, Expr.height]
    omega
  | sum _ _ _ ihl ihr =>
    rw [List.length_append, List.length_cons, Expr.height]
    omega

theorem Due.length_path_le {us path : List Token} {N : Phrase} (h : Due us N path) :
    path.length ≤ us.length := by
  induction h with
  | statement _ => exact Nat.zero_le _
  | value _ _ _ => exact Nat.zero_le _
  | first op _ ih => exact ih
  | next op _ _ _ ih =>
    rw [List.length_append, List.length_append]
    omega
  | sign _ _ ih =>
    rw [List.length_append, List.length_append]
    exact Nat.succ_le_succ ih
  | paren _ _ ih =>
    rw [List.length_append, List.length_append]
    exact Nat.succ_le_succ ih

/-- Each level takes a token of its own, so items no more than the limit never go beyond it. -/
theorem within_of_length_le {limit : Nat} {items : List Token.Item} (h : items.length ≤ limit) :
    Within limit items where
  path := by
    rintro t _ ⟨rfl, hdue, -⟩
    have hpath := hdue.length_path_le
    simp only [List.length_append, List.length_map, List.length_cons, List.length_nil] at h ⊢
    omega
  tree := by
    rintro t _ (⟨rfl, -, -, he⟩ | ⟨op, rfl, -, hl, -, hr, -⟩)
    · have hheight := he.height_lt_length
      simp only [List.length_append, List.length_map, List.length_cons] at h hheight
      rw [Expr.height]
      omega
    · have hleft := hl.height_lt_length
      have hright := hr.height_lt_length
      simp only [List.length_append, List.length_map, List.length_cons] at h hleft hright
      rw [Expr.height]
      omega

end Grammar

namespace Parser
open Grammar
variable {α β : Type} {items rest : List Token.Item} {us vs path : List Token} {t u : Token}
  {p q : Parser} {x : Parse α} {f : α → Parse β}

def Exceeds (items : List Token.Item) (t : Token) : Prop :=
  (∃ path, Opens items t path ∧ path.length = maxDepth + 1) ∨
    ∃ e, Heads items t e ∧ e.height = maxDepth + 1

inductive Fault (items : List Token.Item) : Error → Prop
  | item {e} : .error e ∈ items → Fault items e
  | misfit (t : Token) {expected} : expected ≠ "at most 256 levels of nesting" →
    Fault items (t.unexpected expected)
  | limit {t : Token} : Exceeds items t → Fault items (tooDeep t)

def Meets (items : List Token.Item) (p : Parser) (x : Parse α) (Q : α → Parser → Prop) : Prop :=
  match p.run x with
  | (.ok a, q) => Q a q
  | (.error e, _) => Fault items e

theorem Meets.bind {R : α → Parser → Prop} {Q : β → Parser → Prop} (hx : Meets items p x R)
    (hf : ∀ a q, R a q → Meets items q (f a) Q) : Meets items p (x >>= f) Q := by
  unfold Meets at hx ⊢
  rcases hrun : p.run x with ⟨e | a, q⟩ <;> rw [hrun] at hx
  · rwa [run_bind_of_error hrun]
  · rw [run_bind_of_ok hrun]
    exact hf a q hx

/-- The items are still to come, and behind them nothing but ends of file that were made up. -/
def Facing (p : Parser) (rest : List Token.Item) : Prop :=
  ∃ made : List Token, (∀ t ∈ made, t.kind = .eof) ∧ p.pending = rest ++ made.map .ok

def IsNext (rest : List Token.Item) (t : Token) : Prop :=
  rest.head? = some (.ok t) ∨ rest = [] ∧ t.kind = .eof

theorem IsNext.eq_cons (h : IsNext rest t) (ht : t.kind ≠ .eof) :
    ∃ rest', rest = .ok t :: rest' := by
  rcases h with h | ⟨-, hk⟩
  · exact List.head?_eq_some_iff.mp h
  · exact absurd hk ht

theorem IsNext.kind_eq (h : IsNext rest t) (hu : IsNext rest u) : u.kind = t.kind := by
  rcases h with h | ⟨rfl, hk⟩ <;> rcases hu with hu | ⟨hnil, hk'⟩
  · cases h.symm.trans hu
    rfl
  · rw [hnil] at h
    cases h
  · cases hu
  · rw [hk, hk']

theorem Facing.front (h : p.Facing rest) :
    (∃ e, rest.head? = some (.error e) ∧ p.front = .error e) ∨
      ∃ t, IsNext rest t ∧ p.front = .ok t := by
  obtain ⟨made, hmade, hp⟩ := h
  rcases rest with _ | ⟨e | t, rest⟩
  · cases made with
    | nil => exact .inr ⟨⟨.eof, "", p.finish⟩, .inr ⟨rfl, rfl⟩, by rw [Parser.front, hp]; rfl⟩
    | cons t made =>
      exact .inr ⟨t, .inr ⟨rfl, hmade t (List.mem_cons_self ..)⟩, front_of_pending hp⟩
  · exact .inl ⟨e, rfl, front_of_pending hp⟩
  · exact .inr ⟨t, .inl rfl, front_of_pending hp⟩

theorem Facing.tail (h : p.Facing rest) (hq : q.pending = p.pending.tail) : q.Facing rest.tail := by
  obtain ⟨made, hmade, hp⟩ := h
  rw [hp] at hq
  cases rest with
  | nil => exact ⟨made.tail, fun t ht => hmade t (List.mem_of_mem_tail ht), by rw [hq]; simp⟩
  | cons item rest => exact ⟨made, hmade, hq⟩

theorem Facing.look (h : p.Facing rest) (ht : IsNext rest t)
    (hq : q.pending = .ok t :: p.pending.tail) : q.Facing rest := by
  obtain ⟨made, hmade, hp⟩ := h
  rw [hp] at hq
  cases rest with
  | nil =>
    obtain ⟨-, hk⟩ := ht.resolve_left (by simp)
    refine ⟨t :: made.tail, ?_, by rw [hq]; simp⟩
    exact List.forall_mem_cons.mpr ⟨hk, fun u hu => hmade u (List.mem_of_mem_tail hu)⟩
  | cons item rest =>
    obtain rfl := Option.some.inj (ht.resolve_right (by simp))
    exact ⟨made, hmade, hq⟩

/-- The parser has used up the tokens `us` of the items, and has the rest to come. -/
def At (items : List Token.Item) (us : List Token) (rest : List Token.Item) (p : Parser) : Prop :=
  items = us.map .ok ++ rest ∧ p.Facing rest

theorem At.fault {e : Error} (h : At items us rest p) (he : rest.head? = some (.error e)) :
    Fault items e := by
  obtain ⟨rest, rfl⟩ := List.head?_eq_some_iff.mp he
  exact .item (by rw [h.1]; simp)

theorem meets_peek (h : At items us rest p) :
    Meets items p peek fun t q => At items us rest q ∧ IsNext rest t := by
  unfold Meets
  rcases h.2.front with ⟨e, he, hfront⟩ | ⟨t, ht, hfront⟩
  · obtain ⟨q, hrun, -⟩ := run_peek_of_error hfront
    rw [hrun]
    exact h.fault he
  · obtain ⟨q, hrun, hq, -⟩ := run_peek_of_ok hfront
    rw [hrun]
    exact ⟨⟨h.1, h.2.look ht hq⟩, ht⟩

theorem meets_advance (h : At items us rest p) :
    Meets items p advance fun t q => t.kind ≠ .eof →
      ∃ rest', rest = .ok t :: rest' ∧ At items (us ++ [t]) rest' q := by
  unfold Meets
  obtain ⟨q, hrun, hq⟩ := p.run_advance
  rcases h.2.front with ⟨e, he, hfront⟩ | ⟨t, ht, hfront⟩ <;> rw [hrun, hfront]
  · exact h.fault he
  · intro hk
    obtain ⟨rest', rfl⟩ := ht.eq_cons hk
    exact ⟨rest', rfl, by rw [h.1]; simp, h.2.tail hq⟩

theorem meets_advance_of_cons (h : At items us (.ok t :: rest) p) :
    Meets items p advance fun u q => t = u ∧ At items (us ++ [t]) rest q := by
  unfold Meets
  obtain ⟨q, hrun, hq⟩ := p.run_advance
  rcases h.2.front with ⟨e, he, -⟩ | ⟨u, hu, hfront⟩
  · cases he
  · obtain rfl : t = u := by simpa [IsNext] using hu
    rw [hrun, hfront]
    exact ⟨rfl, by rw [h.1]; simp, h.2.tail hq⟩

theorem meets_peekSecond (h : At items us (.ok t :: rest) p) :
    Meets items p peekSecond fun u q => At items us (.ok t :: rest) q ∧ IsNext rest u := by
  obtain ⟨hitems, made, hmade, hp⟩ := h
  rw [List.cons_append] at hp
  unfold Meets
  obtain ⟨pos, q, hrun, hq⟩ := run_peekSecond hp
  rcases rest with _ | ⟨e | u, rest⟩
  · cases made with
    | nil =>
      rw [hrun]
      exact ⟨⟨hitems, [⟨.eof, "", pos⟩], by simp, hq⟩, .inr ⟨rfl, rfl⟩⟩
    | cons u made =>
      rw [hrun]
      exact ⟨⟨hitems, u :: made, hmade, hq⟩, .inr ⟨rfl, hmade u (List.mem_cons_self ..)⟩⟩
  · rw [hrun]
    exact .item (by rw [hitems]; simp)
  · rw [hrun]
    exact ⟨⟨hitems, made, hmade, hq⟩, .inl rfl⟩

def HasRead (items : List Token.Item) (us : List Token) (N : Phrase) (tree : Tree) (q : Parser) :
    Prop :=
  ∃ vs rest d, At items (us ++ vs) rest q ∧ Derives N (vs.map Token.kind) tree.1 d ∧
    IsMeasured tree ∧ EndsPhrase N rest

def ReadsDue (N : Phrase) (room : Nat) (x : Parse Tree) : Prop :=
  ∀ ⦃items us rest path p⦄, Due us N path → path.length + room = maxDepth →
    At items us rest p → Meets items p x (HasRead items us N)

section
variable {M N : Phrase} {op? : Token.Kind → Option BinaryOp} {operand : Parse Tree} {room : Nat}

/-- The operators that `op?` knows are those that make a phrase `N`, with `M` on their right. -/
structure Joins (M N : Phrase) (op? : Token.Kind → Option BinaryOp) : Prop
    extends IsChain M N op? where
  due : ∀ {us path}, Due us N path → Due us M path
  some_eq : ∀ {k op}, op? k = some op → k = op.kind ∧ N = op.phrase ∧ M = op.operand
  none_ne : ∀ {k} {op : BinaryOp}, op? k = none → k = op.kind → op.phrase ≠ N

theorem phrase_eq_term {op : BinaryOp} : op.phrase = .term ↔ op = .mul ∨ op = .div := by
  cases op <;> simp [BinaryOp.phrase]

theorem phrase_eq_expression {op : BinaryOp} :
    op.phrase = .expression ↔ op = .add ∨ op = .sub := by
  cases op <;> simp [BinaryOp.phrase]

theorem joins_term : Joins .factor .term multiplicative? where
  toIsChain := isChain_term
  due := .first .mul
  some_eq hop := by
    obtain ⟨rfl | rfl, rfl⟩ := multiplicative?_eq_some.mp hop <;> exact ⟨rfl, rfl, rfl⟩
  none_ne hop hk hphrase := by
    have hsome := multiplicative?_eq_some.mpr ⟨phrase_eq_term.mp hphrase, hk⟩
    cases hop.symm.trans hsome

theorem joins_expression : Joins .term .expression additive? where
  toIsChain := isChain_expression
  due := .first .add
  some_eq hop := by
    obtain ⟨rfl | rfl, rfl⟩ := additive?_eq_some.mp hop <;> exact ⟨rfl, rfl, rfl⟩
  none_ne hop hk hphrase := by
    have hsome := additive?_eq_some.mpr ⟨phrase_eq_expression.mp hphrase, hk⟩
    cases hop.symm.trans hsome

theorem Joins.endsPhrase (hN : Joins M N op?) (ht : IsNext rest t) (hop : op? t.kind = none) :
    EndsPhrase N rest := by
  intro u op hu hk
  have hkind : u.kind = t.kind := ht.kind_eq (.inl hu)
  exact hN.none_ne hop (hkind.symm.trans hk)

theorem meets_operations (hN : Joins M N op?) (hoperand : ReadsDue M room operand)
    (hdue : Due us N path) (hroom : path.length + room = maxDepth) {left : Expr} {d : Nat}
    (hleft : Derives N (vs.map Token.kind) left d) (hlow : left.height ≤ maxDepth)
    (hp : At items (us ++ vs) rest p) :
    Meets items p (operations op? operand left left.height) (HasRead items us N) := by
  -- every round makes the left operand higher, up to the limit
  induction hn : maxDepth - left.height using Nat.strongRecOn
    generalizing p vs rest left d with
  | _ n ih =>
    rw [operations]
    refine (meets_peek hp).bind ?_
    rintro t q ⟨hq, ht⟩
    cases hop : op? t.kind with
    | none => exact ⟨vs, rest, d, hq, hleft, ⟨rfl, hlow⟩, hN.endsPhrase ht hop⟩
    | some op =>
      have hne : t.kind ≠ .eof := fun hk => by simp [hk, hN.eof] at hop
      obtain ⟨rest, rfl⟩ := ht.eq_cons hne
      obtain ⟨hk, rfl, rfl⟩ := hN.some_eq hop
      refine (meets_advance_of_cons hq).bind ?_
      rintro _ q₁ ⟨rfl, hq₁⟩
      refine (hoperand (hdue.next op hleft hk) hroom hq₁).bind ?_
      rintro ⟨right, height⟩ q₂ ⟨ws, rest, d', hq₂, hright, ⟨hheight, hlow'⟩, hends⟩
      obtain rfl : right.height = height := hheight
      have hitems : At items (us ++ (vs ++ t :: ws)) rest q₂ := by simpa using hq₂
      dsimp only at hlow' ⊢
      split
      · rename_i hhigh
        refine Fault.limit (.inr ⟨_, .operator op ?_ hdue hleft hk hright hends, ?_⟩)
        · simpa using hitems.1
        · simp only [Expr.height]
          omega
      · rename_i hheight
        have hnext : Derives op.phrase ((vs ++ t :: ws).map Token.kind)
            (.binary op left right) (max d d') := by
          simpa using hN.next hop hleft hright
        have hlt : maxDepth - (Expr.binary op left right).height < n := by
          simp only [Expr.height]
          omega
        exact ih _ hlt hnext (Nat.not_lt.mp hheight) hitems rfl

theorem ReadsDue.chain (hN : Joins M N op?) (hoperand : ReadsDue M room operand) :
    ReadsDue N room (chain op? operand) := by
  intro items us rest path p hdue hroom hp
  refine (hoperand (hN.due hdue) hroom hp).bind ?_
  rintro ⟨left, height⟩ q ⟨vs, rest, d, hq, hleft, ⟨hheight, hlow⟩, -⟩
  obtain rfl : left.height = height := hheight
  exact meets_operations hN hoperand hdue hroom (hN.first hleft) hlow hq

theorem ReadsDue.sum (h : ReadsDue .factor room operand) :
    ReadsDue .expression room (sum operand) :=
  (h.chain joins_term).chain joins_expression

end

theorem meets_closeParen (hp : At items us rest p) :
    Meets items p closeParen fun _ q => ∃ t rest, t.kind = .rightParen ∧
      At items (us ++ [t]) rest q := by
  refine (meets_peek hp).bind ?_
  rintro t q ⟨hq, ht⟩
  split
  · rename_i hk
    obtain ⟨rest, rfl⟩ := ht.eq_cons (by simp [hk])
    refine (meets_advance_of_cons hq).bind ?_
    rintro _ q₁ ⟨rfl, hq₁⟩
    exact ⟨t, rest, hk, hq₁⟩
  · exact Fault.misfit t (by decide)

theorem endsPhrase_factor (rest : List Token.Item) : EndsPhrase .factor rest := by
  intro t op _ _
  cases op <;> simp [BinaryOp.phrase]

theorem readsDue_factor (room : Nat) : ReadsDue .factor room (factor room) := by
  induction room using Nat.strongRecOn with
  | _ room ih =>
    intro items us rest path p hdue hroom hp
    unfold factor
    refine (meets_advance hp).bind fun t q hused => ?_
    -- without room left the token itself ends a path beyond the limit
    have hfull (hk : t.kind = .leftParen ∨ t.kind = .minus) (hpath : path.length = maxDepth) :
        Fault items (tooDeep t) := by
      obtain ⟨rest, rfl, -⟩ := hused (by rcases hk with hk | hk <;> simp [hk])
      exact .limit (.inl ⟨_, .intro hp.1 hdue hk, by simp [hpath]⟩)
    cases hk : t.kind with
    | number x =>
      obtain ⟨rest, rfl, hq⟩ := hused (by simp [hk])
      exact ⟨[t], rest, 0, hq, by simpa [hk] using .number x, ⟨rfl, Nat.zero_le _⟩,
        endsPhrase_factor rest⟩
    | identifier name =>
      obtain ⟨rest, rfl, hq⟩ := hused (by simp [hk])
      exact ⟨[t], rest, 0, hq, by simpa [hk] using .identifier name, ⟨rfl, Nat.zero_le _⟩,
        endsPhrase_factor rest⟩
    | minus =>
      cases room with
      | zero => exact hfull (.inr hk) hroom
      | succ room =>
        obtain ⟨rest, rfl, hq⟩ := hused (by simp [hk])
        have hinner := ih room (Nat.lt_succ_self room) (hdue.sign hk)
          (by rw [List.length_append, List.length_singleton]; omega) hq
        refine hinner.bind ?_
        rintro ⟨e, height⟩ q₁ ⟨vs, rest, d, hq₁, he, ⟨hheight, hlow⟩, -⟩
        obtain rfl : e.height = height := hheight
        have hitems : At items (us ++ t :: vs) rest q₁ := by simpa using hq₁
        dsimp only at hlow ⊢
        split
        · rename_i hhigh
          refine Fault.limit (.inr ⟨_, .sign hitems.1 hdue hk he, ?_⟩)
          simp only [Expr.height]
          omega
        · rename_i hheight
          exact ⟨t :: vs, rest, d + 1, hitems, by simpa [hk] using .negation he,
            ⟨rfl, Nat.not_lt.mp hheight⟩, endsPhrase_factor rest⟩
    | leftParen =>
      cases room with
      | zero => exact hfull (.inl hk) hroom
      | succ room =>
        obtain ⟨rest, rfl, hq⟩ := hused (by simp [hk])
        have hinner := (ih room (Nat.lt_succ_self room)).sum (hdue.paren hk)
          (by rw [List.length_append, List.length_singleton]; omega) hq
        refine hinner.bind ?_
        rintro tree q₁ ⟨vs, rest, d, hq₁, he, hmeasured, -⟩
        refine (meets_closeParen hq₁).bind ?_
        rintro _ q₂ ⟨u, rest, hu, hq₂⟩
        exact ⟨t :: (vs ++ [u]), rest, d + 1, by simpa using hq₂,
          by simpa [hk, hu] using .parens he, hmeasured, endsPhrase_factor rest⟩
    | _ => exact Fault.misfit t (by decide)

theorem meets_expression (hdue : Due us .expression []) (hp : At items us rest p) :
    Meets items p expression fun e q => ∃ vs rest d, At items (us ++ vs) rest q ∧
      Derives .expression (vs.map Token.kind) e d := by
  refine ((readsDue_factor maxDepth).sum hdue (Nat.zero_add _) hp).bind ?_
  rintro tree q ⟨vs, rest, d, hq, he, -, -⟩
  exact ⟨vs, rest, d, hq, he⟩

theorem meets_statement (hlines : Lines us) (hp : At items us rest p) :
    Meets items p statement fun s q => ∃ vs rest d, At items (us ++ vs) rest q ∧
      DerivesStatement (vs.map Token.kind) s d := by
  have hexpr {q : Parser} (hq : At items us rest q) :
      Meets items q (expression >>= fun e => pure (Statement.expr e)) fun s q =>
        ∃ vs rest d, At items (us ++ vs) rest q ∧ DerivesStatement (vs.map Token.kind) s d := by
    refine (meets_expression (.statement hlines) hq).bind ?_
    rintro e r ⟨vs, rest, d, hr, he⟩
    exact ⟨vs, rest, d, hr, .expr he⟩
  refine (meets_peek hp).bind ?_
  rintro t q ⟨hq, ht⟩
  cases hk : t.kind with
  | identifier name =>
    obtain ⟨rest, rfl⟩ := ht.eq_cons (by simp [hk])
    refine (meets_peekSecond hq).bind ?_
    rintro u q₁ ⟨hq₁, hu⟩
    split
    · rename_i hassign
      obtain ⟨rest, rfl⟩ := hu.eq_cons (by simp [hassign])
      rw [discard_bind]
      refine (meets_advance_of_cons hq₁).bind ?_
      rintro _ q₂ ⟨rfl, hq₂⟩
      rw [discard_bind]
      refine (meets_advance_of_cons hq₂).bind ?_
      rintro _ q₃ ⟨rfl, hq₃⟩
      have hq₃ : At items (us ++ [t, u]) rest q₃ := by simpa using hq₃
      refine (meets_expression (.value hlines hk hassign) hq₃).bind ?_
      rintro e q₄ ⟨vs, rest, d, hq₄, he⟩
      exact ⟨t :: u :: vs, rest, d, by simpa using hq₄, by simpa [hk, hassign] using .assign he⟩
    · exact hexpr hq₁
  | _ => exact hexpr hq

theorem meets_endStatement (hp : At items us rest p) :
    Meets items p endStatement fun _ q =>
      (∃ t rest, t.kind = .newline ∧ At items (us ++ [t]) rest q) ∨
        ∃ t, t.kind = .eof ∧ IsNext rest t ∧ At items us rest q := by
  refine (meets_peek hp).bind ?_
  rintro t q ⟨hq, ht⟩
  split
  · exact Fault.misfit t (by decide)
  · rename_i hterminator
    split
    · rename_i hk
      obtain ⟨rest, rfl⟩ := ht.eq_cons (by simp [hk])
      refine (meets_advance_of_cons hq).bind ?_
      rintro _ q₁ ⟨rfl, hq₁⟩
      exact .inl ⟨t, rest, hk, hq₁⟩
    · rename_i hk
      have heof : t.kind = .eof :=
        (isTerminator_iff.mp (by simpa using hterminator)).resolve_left hk
      exact .inr ⟨t, heof, ht, hq⟩

theorem meets_statements_of_eof (rounds index : Nat) (hp : At items us rest p)
    (ht : IsNext rest t) (hk : t.kind = .eof) :
    Meets items p (statements rounds index) fun _ _ => True := by
  cases rounds with
  | zero => trivial
  | succ rounds =>
    refine (meets_peek hp).bind ?_
    rintro u q ⟨-, hu⟩
    rw [ht.kind_eq hu, hk]
    trivial

theorem meets_statements (rounds index : Nat) (hlines : Lines us) (hp : At items us rest p) :
    Meets items p (statements rounds index) fun _ _ => True := by
  induction rounds generalizing p us rest index with
  | zero => trivial
  | succ rounds ih =>
    refine (meets_peek hp).bind ?_
    rintro t q ⟨hq, ht⟩
    split
    · trivial
    · rename_i hk
      obtain ⟨rest, rfl⟩ := ht.eq_cons (by simp [hk])
      rw [discard_bind]
      refine (meets_advance_of_cons hq).bind ?_
      rintro _ q₁ ⟨rfl, hq₁⟩
      exact ih index (hlines.blank hk) hq₁
    · refine (meets_statement hlines hq).bind ?_
      rintro s q₁ ⟨vs, rest, d, hq₁, hs⟩
      have hreport : Meets items q₁ (report (.statementParsed index s)) fun _ q =>
          At items (us ++ vs) rest q := hq₁
      refine hreport.bind fun _ q₂ hq₂ => (meets_endStatement hq₂).bind ?_
      rintro _ q₃ (⟨u, rest, hu, hq₃⟩ | ⟨u, hu, hnext, hq₃⟩)
      · exact (ih (index + 1) (hlines.line hs hu) hq₃).bind fun _ _ _ => trivial
      · exact (meets_statements_of_eof rounds (index + 1) hq₃ hnext hu).bind fun _ _ _ => trivial

theorem fault_of_parse {e : Error} (h : p.parse.1 = .error e) : Fault p.pending e := by
  have hp : At p.pending [] p.pending p := ⟨rfl, [], by simp, by simp⟩
  have hmeets := meets_statements (p.unread.length + p.buffer.length + 1) 0 .nil hp
  unfold Meets at hmeets
  rw [parse_fst] at h
  generalize p.run (statements (p.unread.length + p.buffer.length + 1) 0) = r at h hmeets
  obtain ⟨_ | _, _⟩ := r <;> cases h
  exact hmeets

end Parser
end LineCalc
