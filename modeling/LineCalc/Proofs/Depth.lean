import LineCalc.Proofs.Levels
import LineCalc.Session

/-! The account that the parser keeps of depth. Its count of open parentheses and signs is the same
after every call as before it, the height that it hands on with a tree is that of the tree, and a
limit is met at the first level beyond it. So what has been parsed can be evaluated and printed on
a stack of bounded depth. -/

namespace LineCalc

theorem exceptT_bind_of_some {ε α β : Type} {x : ExceptT ε Option α}
    {f : α → ExceptT ε Option β} {r : Except ε α} {g : α → Except ε β}
    (hx : x.run = some r) (hf : ∀ a, (f a).run = some (g a)) :
    (x >>= f).run = some (r >>= g) := by
  rw [ExceptT.run_bind, hx]
  cases r with
  | error e => rfl
  | ok a => exact hf a

namespace Expr
variable {frames : Nat} {e : Expr}

/-- The value of an expression where no more than `frames` calls may be under way at a time. There
is none if another call would be needed. -/
def evalWithin (s : Store) : (frames : Nat) → Expr → ExceptT EvalError Option Number
  | 0, _ => ExceptT.mk none
  | _ + 1, .num x => ExceptT.mk (some x.checked)
  | _ + 1, .var name => ExceptT.mk (some (s.read name))
  | frames + 1, .unary .neg e => do
    let x ← e.evalWithin s frames
    return -x
  | frames + 1, .binary op l r => do
    let x ← l.evalWithin s frames
    let y ← r.evalWithin s frames
    let z ← ExceptT.mk (some (op.apply x y))
    ExceptT.mk (some z.checked)

def textWithin : (frames : Nat) → Expr → Option String
  | 0, _ => none
  | _ + 1, .num x => some x.text
  | _ + 1, .var name => some name
  | frames + 1, .unary .neg e => do
    let inner ← e.textWithin frames
    return "(-" ++ inner ++ ")"
  | frames + 1, .binary op l r => do
    let left ← l.textWithin frames
    let right ← r.textWithin frames
    return "(" ++ left ++ " " ++ op.text ++ " " ++ right ++ ")"

theorem evalWithin_of_height_lt (s : Store) (h : e.height < frames) :
    (e.evalWithin s frames).run = some (e.eval s) := by
  induction frames generalizing e with
  | zero => exact absurd h (Nat.not_lt_zero _)
  | succ frames ih =>
    cases e with
    | num x => rfl
    | var name => rfl
    | unary op e =>
      cases op
      exact exceptT_bind_of_some (ih (Nat.lt_of_succ_lt_succ h)) fun _ => rfl
    | binary op l r =>
      obtain ⟨hl, hr⟩ := Nat.max_lt.mp (Nat.lt_of_succ_lt_succ h)
      refine exceptT_bind_of_some (ih hl) fun x => exceptT_bind_of_some (ih hr) fun y => ?_
      exact exceptT_bind_of_some rfl fun _ => rfl

theorem textWithin_of_height_lt (h : e.height < frames) : e.textWithin frames = some e.text := by
  induction frames generalizing e with
  | zero => exact absurd h (Nat.not_lt_zero _)
  | succ frames ih =>
    cases e with
    | num x => rfl
    | var name => rfl
    | unary op e =>
      cases op
      rw [textWithin, ih (Nat.lt_of_succ_lt_succ h)]
      rfl
    | binary op l r =>
      obtain ⟨hl, hr⟩ := Nat.max_lt.mp (Nat.lt_of_succ_lt_succ h)
      rw [textWithin, ih hl, ih hr]
      rfl

end Expr

namespace Parser
open Grammar

def phrase {σ : Type} [Moves σ] (room : Nat) : Phrase → Step σ Tree
  | .factor => factor room
  | .term => term (factor room)
  | .expression => sum (factor room)

theorem returns_phrase (room : Nat) (N : Phrase) : Returns (phrase room N) IsMeasured := by
  cases N with
  | factor => exact returns_factor room
  | term => exact (returns_factor room).chain
  | expression => exact (returns_factor room).sum

namespace Watched
variable {α β : Type} {y : Watch α} {g : α → Watch β}

def Restores (y : Watch α) : Prop := ∀ w : Watched, (w.run y).2.openers = w.openers

theorem restores_pure (a : α) : Restores (pure a) := fun _ => rfl

theorem restores_throw (e : Error) : Restores (throw e : Watch α) := fun _ => rfl

theorem restores_step (x : Parse α) : Restores (step x) := fun _ => rfl

theorem Restores.bind (hy : Restores y) (hg : ∀ a, Restores (g a)) : Restores (y >>= g) := by
  intro w
  have hopeners := hy w
  rw [run_bind]
  rcases hrun : w.run y with ⟨e | a, w'⟩ <;> rw [hrun] at hopeners
  · exact hopeners
  · exact (hg a w').trans hopeners

theorem restores_get_bind {g : Watched → Watch β} (h : ∀ w, Restores (g w)) :
    Restores (get >>= g) :=
  fun w => h w w

theorem restores_peek : Restores peek := by
  refine restores_get_bind fun w => ?_
  split
  · exact restores_pure _
  · exact (restores_step _).bind fun t => (restores_step _).bind fun _ => restores_pure t

theorem restores_advance : Restores advance := by
  refine restores_get_bind fun w => ?_
  split
  · exact (restores_step _).bind fun _ => restores_pure _
  · exact restores_step _

theorem Restores.nested (h : Restores y) (opener : Token) : Restores (nested opener y) := by
  intro w
  rw [run_nested]
  split
  · rfl
  · exact congrArg List.tail (h { w with openers := opener :: w.openers })

section
variable {op? : Token.Kind → Option BinaryOp} {operand : Watch Tree}

theorem restores_operations (h : Restores operand) (left : Expr) (height : Nat) :
    Restores (operations op? operand left height) := by
  induction hn : maxDepth - height using Nat.strongRecOn generalizing left height with
  | _ n ih =>
    rw [operations]
    refine restores_peek.bind fun t => ?_
    cases op? t.kind with
    | none => exact restores_pure _
    | some op =>
      refine restores_advance.bind fun u => h.bind fun right => ?_
      dsimp only
      split
      · exact restores_throw _
      · exact ih _ (by omega) _ _ rfl

theorem Restores.chain (h : Restores operand) : Restores (chain op? operand) :=
  h.bind fun tree => restores_operations h tree.1 tree.2

theorem Restores.sum (h : Restores operand) : Restores (sum operand) := h.chain.chain

end

theorem restores_closeParen : Restores closeParen := by
  refine restores_peek.bind fun t => ?_
  split
  · exact restores_advance.bind fun _ => restores_pure ()
  · exact restores_throw _

theorem restores_factor (calls : Nat) : Restores (factor calls) := by
  induction calls using Nat.strongRecOn with
  | _ calls ih =>
    unfold factor
    refine restores_advance.bind fun t => ?_
    cases t.kind with
    | number x => exact restores_pure _
    | identifier name => exact restores_pure _
    | minus =>
      refine Restores.bind (Restores.nested ?_ t) fun tree => ?_
      · cases calls with
        | zero => exact restores_throw _
        | succ calls => exact ih calls (Nat.lt_succ_self calls)
      · dsimp only
        split
        · exact restores_throw _
        · exact restores_pure _
    | leftParen =>
      refine Restores.bind (Restores.nested ?_ t) fun tree => ?_
      · cases calls with
        | zero => exact restores_throw _
        | succ calls => exact (ih calls (Nat.lt_succ_self calls)).sum
      · exact restores_closeParen.bind fun _ => restores_pure tree
    | _ => exact restores_throw _

theorem restores_phrase (calls : Nat) (N : Phrase) : Restores (phrase calls N) := by
  cases N with
  | factor => exact restores_factor calls
  | term => exact (restores_factor calls).chain
  | expression => exact (restores_factor calls).sum

theorem tracks_phrase {openers : List Token} {room : Nat} (h : openers.length + room = maxDepth)
    (N : Phrase) : Tracks openers (phrase room N) (phrase room N) := by
  cases N with
  | factor => exact tracks_factor room h
  | term => exact (tracks_factor room h).chain
  | expression => exact (tracks_factor room h).sum

theorem run_phrase_eq {w : Watched} {room : Nat} (h : w.nesting + room = maxDepth)
    (hbuffer : w.parser.buffer.length ≤ 2) (N : Phrase) :
    ((w.run (phrase room N)).1, (w.run (phrase room N)).2.parser) =
      w.parser.run (phrase room N) := by
  obtain ⟨new, hrun, -⟩ := tracks_phrase h N w.parser w.past hbuffer
  change w.run _ = _ at hrun
  rw [hrun]

end Watched

variable {items : List Token.Item} {p : Parser}

theorem exceeds_of_parse {found : String} {pos : Position}
    (h : p.parse.1 = .error (.unexpected "at most 256 levels of nesting" found pos)) :
    .error (.unexpected "at most 256 levels of nesting" found pos) ∈ p.pending ∨
      ∃ t, t.kind.text = found ∧ t.pos = pos ∧ Exceeds p.pending t := by
  generalize he : Error.unexpected "at most 256 levels of nesting" found pos = e at h
  cases fault_of_parse h with
  | item hmem => exact .inl hmem
  | misfit t hexpected =>
    obtain ⟨hexpected', -⟩ := Error.unexpected.inj he
    exact absurd hexpected'.symm hexpected
  | @limit t hexceeds =>
    obtain ⟨-, hfound, hpos⟩ := Error.unexpected.inj he
    exact .inr ⟨t, hfound.symm, hpos.symm, hexceeds⟩

theorem Exceeds.not_within {t : Token} (h : Exceeds items t) : ¬ Within maxDepth items := by
  rintro ⟨hpath, htree⟩
  rcases h with ⟨path, hopens, hlength⟩ | ⟨e, hheads, hheight⟩
  · have := hpath t path hopens
    omega
  · have := htree t e hheads
    omega

/-- Every call that reads a phrase, in whatever state, leaves the count of open parentheses and
signs as it was, and the height that it returns is that of the tree. A limit is met at the token
that ends a path of 257 of them or has a tree of height 257, so never where all of these stay
within 256. An error of the stream may have the words of that complaint, but is not the parser's
own. -/
theorem depth_counted_exactly (items : List Token.Item) (calls : Nat) :
    let p := Parser.after { unread := items } calls
    let w := Watched.after { parser := { unread := items } } calls
    let limit (found : String) (pos : Position) : Error :=
      .unexpected "at most 256 levels of nesting" found pos
    (w.parser = p ∧ w.nesting = 0 ∧ w.parse.1 = p.parse.1) ∧
    (∀ (w : Watched) (room : Nat) (N : Phrase),
      let r := w.run (phrase room N)
      r.2.openers = w.openers ∧
      (w.nesting + room = 256 → w.parser.buffer.length ≤ 2 →
        (r.1, r.2.parser) = w.parser.run (phrase room N))) ∧
    (∀ (q : Parser) (room : Nat) (N : Phrase) (tree : Expr) (height : Nat),
      (q.run (phrase room N)).1 = .ok (tree, height) → tree.height = height ∧ height ≤ 256) ∧
    (∀ found pos, p.parse.1 = .error (limit found pos) → .error (limit found pos) ∈ p.pending ∨
      ∃ t, t.kind.text = found ∧ t.pos = pos ∧
        ((∃ path, Opens p.pending t path ∧ path.length = 257) ∨
          ∃ e, Heads p.pending t e ∧ e.height = 257)) ∧
    (Within 256 p.pending → ∀ found pos, p.parse.1 = .error (limit found pos) →
      .error (limit found pos) ∈ p.pending) ∧
    ∀ program, p.parse.1 = .ok program → ∀ s ∈ program,
      (∀ store, (s.body.evalWithin store 257).run = some (s.body.eval store)) ∧
      s.body.textWithin 257 = some s.body.text := by
  intro p w limit
  have hfresh : (Parser.mk items [] .start []).buffer.length ≤ 1 := Nat.zero_le 1
  refine ⟨?_, fun w room N => ?_, ?_, fun found pos => exceeds_of_parse, ?_, ?_⟩
  · obtain ⟨past, hw, -⟩ := watched_after hfresh calls
    have hw' : w = ⟨p, [], past⟩ := hw
    have hbuffer : p.buffer.length ≤ 1 := buffer_after hfresh calls
    obtain ⟨new, hrun, -⟩ := Watched.tracks_program p past (Nat.le_succ_of_le hbuffer)
    rw [hw']
    exact ⟨rfl, rfl, congrArg Prod.fst hrun⟩
  · exact ⟨Watched.restores_phrase room N w,
      fun hroom hbuffer => Watched.run_phrase_eq hroom hbuffer N⟩
  · intro q room N tree height hrun
    exact returns_phrase room N q _ _ (Prod.ext hrun rfl)
  · intro hwithin found pos herror
    rcases exceeds_of_parse herror with hmem | ⟨t, -, -, hexceeds⟩
    · exact hmem
    · exact absurd hwithin hexceeds.not_within
  · intro program hprogram s hs
    have hheight : s.body.height < 257 :=
      Nat.lt_succ_of_le (returns_program p program p.parse.2 (Prod.ext hprogram rfl) s hs)
    exact ⟨fun store => Expr.evalWithin_of_height_lt store hheight,
      Expr.textWithin_of_height_lt hheight⟩

/-- A chain of 299 operators is refused at the 257th of them, where its tree gets too high. What
comes of its first 256 tokens cannot be a complaint about depth. -/
theorem depth_counted_exactly_chain :
    let items : List Token.Item := (List.range 600).map fun i =>
      .ok ⟨if i % 2 = 0 then .identifier "x" else .plus, "", ⟨1, i⟩⟩
    (Parser.parse { unread := items }).1 =
      .error (.unexpected "at most 256 levels of nesting" "`+`" ⟨1, 513⟩) ∧
    (∃ t : Token, t.kind.text = "`+`" ∧ t.pos = ⟨1, 513⟩ ∧
      ((∃ path, Opens items t path ∧ path.length = 257) ∨
        ∃ e, Heads items t e ∧ e.height = 257)) ∧
    Within 256 (items.take 256) ∧
    ∀ found pos, (Parser.parse { unread := items.take 256 }).1 ≠
      .error (.unexpected "at most 256 levels of nesting" found pos) := by
  intro items
  have hparse : (Parser.parse { unread := items }).1 =
      .error (.unexpected "at most 256 levels of nesting" "`+`" ⟨1, 513⟩) := by decide +kernel
  have hitems (e : Error) : .error e ∉ items := by simp [items]
  clear_value items
  have hwithin : Within 256 (items.take 256) := within_of_length_le (List.length_take_le 256 items)
  obtain ⟨-, -, -, hlimit, -⟩ := depth_counted_exactly items 0
  obtain ⟨-, -, -, -, hnever, -⟩ := depth_counted_exactly (items.take 256) 0
  refine ⟨hparse, (hlimit _ _ hparse).resolve_left (hitems _), hwithin, ?_⟩
  intro found pos herror
  exact hitems _ (List.mem_of_mem_take (hnever hwithin found pos herror))

end Parser
end LineCalc
