import Mathlib.Data.List.Forall2
import LineCalc.Proofs.Cut

/-! Every item of a scanner names its own place. A place is found by counting: the line feeds
before an offset give the line, and the characters since the last of them the column. -/

namespace LineCalc

namespace Position
variable {p q r : Position}

instance : LT Position where
  lt p q := p.line < q.line ∨ p.line = q.line ∧ p.column < q.column

def ofOffset (text : List Char) (o : Nat) : Position :=
  ⟨1 + (text.take o).count '\n', 1 + ((text.take o).reverse.takeWhile (· ≠ '\n')).length⟩

theorem lt_trans (hpq : p < q) (hqr : q < r) : p < r := by
  rcases hpq with hpq | ⟨hline, hpq⟩ <;> rcases hqr with hqr | ⟨hline', hqr⟩
  · exact .inl (Nat.lt_trans hpq hqr)
  · exact .inl (hline' ▸ hpq)
  · exact .inl (hline ▸ hqr)
  · exact .inr ⟨hline.trans hline', Nat.lt_trans hpq hqr⟩

theorem lt_step (p : Position) (c : Char) : p < p.step c := by
  unfold step
  split
  · exact .inl (Nat.lt_succ_self _)
  · exact .inr ⟨rfl, Nat.lt_succ_self _⟩

theorem lt_after (p : Position) {text : List Char} (h : text ≠ []) : p < p.after text := by
  induction text generalizing p with
  | nil => exact absurd rfl h
  | cons c text ih =>
    change p < (p.step c).after text
    by_cases htext : text = []
    · subst htext
      exact lt_step p c
    · exact lt_trans (lt_step p c) (ih (p.step c) htext)

theorem start_after (text : List Char) :
    start.after text = ⟨1 + text.count '\n', 1 + (text.reverse.takeWhile (· ≠ '\n')).length⟩ := by
  -- the column depends on the end of the text, so the induction is on the reversed text
  suffices h : ∀ u : List Char, start.after u.reverse =
      ⟨1 + u.count '\n', 1 + (u.takeWhile (· ≠ '\n')).length⟩ by
    have htext := h text.reverse
    rwa [List.reverse_reverse, List.count_reverse] at htext
  intro u
  induction u with
  | nil => rfl
  | cons c u ih =>
    rw [List.reverse_cons, after_append, ih]
    change step _ c = _
    by_cases hc : c = '\n'
    · subst hc
      simp [step, Nat.add_assoc]
    · simp [step, hc, Nat.add_assoc]

theorem ofOffset_length (u v : List Char) : ofOffset (u ++ v) u.length = start.after u := by
  rw [ofOffset, List.take_left, start_after]

theorem ofOffset_lt {text : List Char} {o o' : Nat} (h : o < o') (ho' : o' ≤ text.length) :
    ofOffset text o < ofOffset text o' := by
  have hlen {n : Nat} (hn : n ≤ text.length) : ofOffset text n = start.after (text.take n) := by
    have hcut := ofOffset_length (text.take n) (text.drop n)
    rwa [List.take_append_drop, List.length_take_of_le hn] at hcut
  have htake : text.take o' = text.take o ++ (text.drop o).take (o' - o) := by
    rw [← List.take_add, Nat.add_sub_cancel' (Nat.le_of_lt h)]
  rw [hlen ho', hlen (Nat.le_trans (Nat.le_of_lt h) ho'), htake, after_append]
  refine lt_after _ (List.ne_nil_of_length_pos ?_)
  rw [List.length_take, List.length_drop]
  omega

end Position

def Error.pos? : Error → Option Position
  | .lexical _ pos => some pos
  | .unexpected _ _ pos => some pos
  | _ => none

namespace Token

def Item.pos? : Item → Option Position
  | .ok t => some t.pos
  | .error e => e.pos?

/-- The item is what stands at an offset of the text: a token whose lexeme is written there, the
end of file, or the report of the character there. -/
def StandsAt (text : List Char) (o : Nat) : Item → Prop
  | .ok t => t.pos = .ofOffset text o ∧ t.lexeme.toList = (text.drop o).take t.lexeme.length ∧
    (t.kind = .eof ↔ o = text.length)
  | .error (.lexical c pos) => text[o]? = some c ∧ pos = .ofOffset text o
  | .error _ => False

theorem StandsAt.pos?_eq {text : List Char} {o : Nat} {item : Item} (h : StandsAt text o item) :
    item.pos? = some (.ofOffset text o) := by
  match item, h with
  | .ok _, ⟨hpos, _⟩ => exact congrArg some hpos
  | .error (.lexical _ _), ⟨_, hpos⟩ => exact congrArg some hpos

theorem filterMap_pos?_eq {text : List Char} {offsets : List Nat} {items : List Item}
    (h : offsets.Forall₂ (StandsAt text) items) :
    items.filterMap Item.pos? = offsets.map (.ofOffset text) := by
  induction h with
  | nil => rfl
  | cons h _ ih => rw [List.filterMap_cons_some h.pos?_eq, ih, List.map_cons]

theorem standsAt_lexeme {kind : Kind} {x : List Char} (hx : Lexeme kind x)
    (before rest : List Char) : StandsAt (before ++ (x ++ rest)) before.length
      (.ok ⟨kind, String.ofList x, Position.start.after before⟩) := by
  have hpos := List.length_pos_iff.mpr hx.ne_nil
  have hkind : kind ≠ .eof := by
    rintro rfl
    cases (hx.eq_of_isTerminator rfl).1
  refine ⟨(Position.ofOffset_length ..).symm, ?_, iff_of_false hkind ?_⟩
  · rw [List.drop_left, String.length_ofList, List.take_left, String.toList_ofList]
  · simp only [List.length_append]
    omega

theorem standsAt_end (text : List Char) :
    StandsAt text text.length (.ok ⟨.eof, "", Position.start.after text⟩) := by
  have hpos := Position.ofOffset_length text []
  rw [List.append_nil] at hpos
  exact ⟨hpos.symm, by simp, iff_of_true rfl rfl⟩

theorem standsAt_stray (before : List Char) (c : Char) (rest : List Char) :
    StandsAt (before ++ c :: rest) before.length
      (.error (.lexical c (Position.start.after before))) :=
  ⟨by simp, (Position.ofOffset_length ..).symm⟩

end Token

namespace Scanner
open Token

theorem items_standAt (before text : List Char) :
    ∃ offsets : List Nat,
      offsets.Forall₂ (StandsAt (before ++ text))
        (items ⟨text, Position.start.after before, false⟩) ∧
      offsets.Pairwise (· < ·) ∧
      ∀ o ∈ offsets, before.length ≤ o ∧ o ≤ (before ++ text).length := by
  -- offsets count from the start of the whole text, so the part already read varies
  induction text using text_induction generalizing before with
  | @done b hb =>
    have hstands := standsAt_end (before ++ b)
    rw [Position.after_append] at hstands
    refine ⟨[(before ++ b).length], ?_, List.pairwise_singleton .., ?_⟩
    · rw [items_layout hb]
      exact .cons hstands .nil
    · simp
  | @word b kind x rest hb hx ih =>
    obtain ⟨offsets, hstand, hlt, hbound⟩ := ih (before ++ b ++ x)
    have hstands := standsAt_lexeme hx.lexeme (before ++ b) rest
    have htext : before ++ b ++ x ++ rest = before ++ (b ++ (x ++ rest)) := by
      simp only [List.append_assoc]
    rw [Position.after_append, Position.after_append, htext] at hstand
    rw [Position.after_append, List.append_assoc] at hstands
    rw [htext] at hbound
    have hpos := List.length_pos_iff.mpr hx.lexeme.ne_nil
    refine ⟨(before ++ b).length :: offsets, ?_, ?_, ?_⟩
    · rw [items_word hb hx]
      exact .cons hstands hstand
    · refine List.pairwise_cons.mpr ⟨fun o ho => ?_, hlt⟩
      have := (hbound o ho).1
      rw [List.length_append] at this
      omega
    · rintro o (_ | ⟨_, ho⟩)
      · simp only [List.length_append]
        omega
      · have := hbound o ho
        simp only [List.length_append] at this ⊢
        omega
  | @stray b c rest hb hc =>
    have hstands := standsAt_stray (before ++ b) c rest
    rw [Position.after_append, List.append_assoc] at hstands
    refine ⟨[(before ++ b).length], ?_, List.pairwise_singleton .., ?_⟩
    · rw [items_stray hb hc]
      exact .cons hstands .nil
    · simp

theorem pairwise_pos_items (source : String) :
    ((ofSource source).items.filterMap Item.pos?).Pairwise (· < ·) := by
  obtain ⟨offsets, hstand, hlt, hbound⟩ := items_standAt [] source.toList
  change offsets.Forall₂ (StandsAt source.toList) (ofSource source).items at hstand
  rw [filterMap_pos?_eq hstand, List.pairwise_map]
  exact hlt.imp_of_mem fun _ ho' h => Position.ofOffset_lt h (hbound _ ho').2

/-- Every item stands where it says, and the places of the items increase. -/
theorem items_positions_exact (source : String) :
    ∃ offsets : List Nat,
      offsets.Forall₂ (StandsAt source.toList) (ofSource source).items ∧
      offsets.Pairwise (· < ·) ∧
      ((ofSource source).items.filterMap Item.pos?).Pairwise (· < ·) := by
  obtain ⟨offsets, hstand, hlt, -⟩ := items_standAt [] source.toList
  exact ⟨offsets, hstand, hlt, pairwise_pos_items source⟩

end Scanner
end LineCalc
