import LineCalc.Proofs.FirstError

/-! Reading a scanner by single items, or all that are left at once, in any order. Every call takes
its items off one list, which is settled by the text alone, and no call can see how the items
before were taken. -/

namespace LineCalc.Scanner

inductive Call where
  | next
  | takeAll
  deriving DecidableEq, Repr

inductive Answer where
  | item (item : Option Token.Item)
  | tokens (result : Except Error (List Token))

def serve (s : Scanner) : Call → Answer × Scanner
  | .next => (.item s.next.1, s.next.2)
  | .takeAll => (.tokens s.takeAll.1, s.takeAll.2)

def answers (s : Scanner) : List Call → List Answer
  | [] => []
  | c :: calls => (s.serve c).1 :: (s.serve c).2.answers calls

/-- All of the items, where the last one may be an error: then it is the result. -/
def collected (items : List Token.Item) : Except Error (List Token) :=
  match items.getLast? with
  | some (.error e) => .error e
  | _ => .ok (items.filterMap Except.toOption)

/-- The same calls on a list of items: `next` takes the first of them, if there is one, and
`takeAll` takes them all. -/
def deliver (items : List Token.Item) : List Call → List Answer
  | [] => []
  | .next :: calls => .item items.head? :: deliver items.tail calls
  | .takeAll :: calls => .tokens (collected items) :: deliver [] calls

inductive Left : List Token.Item → Prop
  | none : Left []
  | some (tokens : List Token) (last : Token.Item) : Left (tokens.map .ok ++ [last])

theorem next_eq (s : Scanner) : s.next.1 = s.items.head? ∧ s.next.2.items = s.items.tail := by
  rcases hnext : s.next with ⟨_ | item, s'⟩
  · have hsame : s' = s := by
      unfold next at hnext
      split at hnext
      · exact (congrArg Prod.snd hnext).symm
      · dsimp only at hnext
        split at hnext
        · cases hnext
        · split at hnext <;> cases hnext
    rw [hsame, items_of_next_none hnext]
    exact ⟨rfl, rfl⟩
  · rw [items_of_next_some hnext]
    exact ⟨rfl, rfl⟩

theorem length_items_le (s : Scanner) : s.items.length ≤ s.remaining := by
  induction hn : s.remaining using Nat.strongRecOn generalizing s with
  | _ n ih =>
    rcases hnext : s.next with ⟨_ | item, s'⟩
    · rw [items_of_next_none hnext]
      exact Nat.zero_le n
    · have hless := remaining_lt_of_next hnext
      have hrest := ih s'.remaining (hn ▸ hless) s' rfl
      rw [items_of_next_some hnext, List.length_cons]
      omega

theorem Left.tail {items : List Token.Item} (h : Left items) : Left items.tail := by
  cases h with
  | none => exact .none
  | some tokens last =>
    cases tokens with
    | nil => exact .none
    | cons t tokens => exact .some tokens last

theorem Left.mapM_eq {items : List Token.Item} (h : Left items) :
    items.mapM id = collected items := by
  cases h with
  | none => rfl
  | some tokens last =>
    have htokens :
        (tokens.map (Except.ok : Token → Token.Item)).filterMap Except.toOption = tokens := by
      simp [List.filterMap_map, Function.comp_def, Except.toOption]
    rw [Token.mapM_ok_append, collected, List.getLast?_concat]
    cases last with
    | error e => rfl
    | ok t =>
      rw [List.filterMap_append, htokens]
      rfl

theorem answers_eq_deliver (s : Scanner) (h : Left s.items) (calls : List Call) :
    s.answers calls = deliver s.items calls := by
  induction calls generalizing s with
  | nil => rfl
  | cons c calls ih =>
    cases c with
    | next =>
      obtain ⟨hitem, hrest⟩ := s.next_eq
      have hleft : Left s.next.2.items := hrest ▸ h.tail
      rw [deliver, ← hitem, ← hrest, ← ih s.next.2 hleft]
      rfl
    | takeAll =>
      have hrest : s.takeAll.2.items = [] := items_finished s.text s.pos
      have hleft : Left s.takeAll.2.items := hrest ▸ .none
      rw [deliver, ← h.mapM_eq, ← hrest, ← ih s.takeAll.2 hleft]
      rfl

/-- A text has one stream of items, at most one more than it has characters: tokens, and at last an
end of file or an error in the text. Single items and all the rest may be asked for in any order
and as often as one likes: every call is answered from what the calls before have left. -/
theorem answers_from_one_stream (source : String) :
    ∃ (tokens : List Token) (last : Token.Item),
      (tokens.map Except.ok ++ [last]).length ≤ source.length + 1 ∧
      (∀ t ∈ tokens, t.kind ≠ .eof) ∧
      ((∃ t, last = .ok t ∧ t.kind = .eof) ∨ ∃ c pos, last = .error (.lexical c pos)) ∧
      ∀ calls, (ofSource source).answers calls = deliver (tokens.map .ok ++ [last]) calls := by
  obtain ⟨tokens, last, hitems, hkind, hlast⟩ := items_eq_append source
  have hlength := (ofSource source).length_items_le
  have hleft : Left (ofSource source).items := hitems ▸ .some tokens last
  rw [hitems] at hlength
  refine ⟨tokens, last, hlength, hkind, hlast, fun calls => ?_⟩
  rw [← hitems]
  exact answers_eq_deliver _ hleft calls

end LineCalc.Scanner
