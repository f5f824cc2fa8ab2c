import Mathlib.Data.List.GetD
import LineCalc.Proofs.Aligned
import LineCalc.Proofs.Progress
import LineCalc.Proofs.Spacing

/-! Tokens without an end of file. A parser is known by its supply, the tokens it delivers when it
is asked for ever; a stream that has run dry supplies ends of file just past its last token. So the
tokens of a text are read the same without the end of file among them. Only the place of a
complaint about the end of file can differ, by the layout behind the last token. -/

namespace LineCalc

namespace Parser
variable {p q : Parser} {f : Nat → Token}

def Supplies (p : Parser) (f : Nat → Token) : Prop :=
  ∀ n, p.pending.getD n (.ok ⟨.eof, "", p.endAt⟩) = .ok (f n)

namespace Supplies

theorem front_eq (h : p.Supplies f) : p.front = .ok (f 0) := by
  have hfirst := h 0
  rw [front]
  cases hp : p.pending with
  | nil =>
    rw [hp] at hfirst
    rw [finish_eq_endAt hp]
    exact hfirst
  | cons item rest =>
    rw [hp] at hfirst
    exact hfirst

theorem tail (h : p.Supplies f) (n : Nat) :
    p.pending.tail.getD n (.ok ⟨.eof, "", p.endAt⟩) = .ok (f (n + 1)) := by
  have hnext := h (n + 1)
  cases hp : p.pending with
  | nil =>
    rw [hp] at hnext
    exact hnext
  | cons item rest =>
    rw [hp] at hnext
    exact hnext

theorem advance (h : p.Supplies f) :
    ∃ q, p.run advance = (.ok (f 0), q) ∧ q.Supplies fun n => f (n + 1) := by
  have hend := endAt_advance p
  obtain ⟨q, hrun, hq⟩ := p.run_advance
  rw [hrun] at hend
  refine ⟨q, by rw [hrun, h.front_eq], fun n => ?_⟩
  rw [hq, hend]
  exact h.tail n

theorem peek (h : p.Supplies f) : ∃ q, p.run peek = (.ok (f 0), q) ∧ q.Supplies f ∧
    q.pending = .ok (f 0) :: p.pending.tail ∧ ∃ buffer, q.buffer = f 0 :: buffer := by
  have hend := endAt_peek p
  obtain ⟨q, hrun, hq, hbuffer⟩ := run_peek_of_ok h.front_eq
  rw [hrun] at hend
  refine ⟨q, hrun, fun n => ?_, hq, hbuffer⟩
  rw [hq, hend]
  cases n with
  | zero => rfl
  | succ n => exact h.tail n

theorem peekSecond_of_pending {t : Token} {rest : List Token.Item} (h : p.Supplies f)
    (hp : p.pending = .ok t :: rest) :
    ∃ q, p.run peekSecond = (.ok (f 1), q) ∧ q.Supplies f := by
  have hend := endAt_peekSecond p
  have hsecond := h.tail 0
  rw [hp, List.tail_cons] at hsecond
  cases rest with
  | nil =>
    -- the token that is made up goes to the buffer, where it is the one supplied anyway
    obtain ⟨q, hrun, hq⟩ := run_peekSecond_of_singleton hp
    rw [hrun] at hend
    have hmade : ⟨.eof, "", p.endAt⟩ = f 1 := Except.ok.inj hsecond
    refine ⟨q, by rw [hrun, hmade], fun n => ?_⟩
    rw [hq, hend, ← h n, hp]
    rcases n with _ | _ | n <;> rfl
  | cons item rest =>
    obtain rfl : item = .ok (f 1) := hsecond
    obtain ⟨_, q, hrun, hq⟩ := run_peekSecond hp
    rw [hrun] at hend
    refine ⟨q, hrun, fun n => ?_⟩
    rw [hq, hend, ← h n, hp]
    rfl

theorem peekSecond (h : p.Supplies f) :
    ∃ q, p.run peekSecond = (.ok (f 1), q) ∧ q.Supplies f := by
  obtain ⟨q, hrun, hq, hpending, buffer, hbuffer⟩ := h.peek
  obtain ⟨r, hrun', hr⟩ := hq.peekSecond_of_pending hpending
  refine ⟨r, ?_, hr⟩
  -- the first token, now in the buffer, is only looked at again
  have hagain : q.run Parser.peek = (.ok (f 0), q) := by
    unfold Parser.peek
    rw [run_get_bind, hbuffer]
    rfl
  unfold Parser.peekSecond at hrun' ⊢
  rw [run_bind_of_ok hrun]
  rwa [run_bind_of_ok hagain] at hrun'

end Supplies

def Supplied (T : Token → Token → Prop) (p q : Parser) : Prop :=
  ∃ f g, p.Supplies f ∧ q.Supplies g ∧ ∀ n, T (f n) (g n)

def SameComplaint (T : Token → Token → Prop) (e e' : Error) : Prop :=
  ∃ t u expected, T t u ∧ e = t.unexpected expected ∧ e' = u.unexpected expected

section
variable {T : Token → Token → Prop}

theorem Supplied.alike_peek (h : Supplied T p q) :
    Alike (Supplied T) T (SameComplaint T) (p.run peek) (q.run peek) := by
  obtain ⟨f, g, hp, hq, hT⟩ := h
  obtain ⟨p', hrun, hp', -⟩ := hp.peek
  obtain ⟨q', hrun', hq', -⟩ := hq.peek
  rw [hrun, hrun']
  exact .ok (hT 0) ⟨f, g, hp', hq', hT⟩

theorem Supplied.alike_peekSecond (h : Supplied T p q) :
    Alike (Supplied T) T (SameComplaint T) (p.run peekSecond) (q.run peekSecond) := by
  obtain ⟨f, g, hp, hq, hT⟩ := h
  obtain ⟨p', hrun, hp'⟩ := hp.peekSecond
  obtain ⟨q', hrun', hq'⟩ := hq.peekSecond
  rw [hrun, hrun']
  exact .ok (hT 1) ⟨f, g, hp', hq', hT⟩

theorem Supplied.alike_advance (h : Supplied T p q) :
    Alike (Supplied T) T (SameComplaint T) (p.run advance) (q.run advance) := by
  obtain ⟨f, g, hp, hq, hT⟩ := h
  obtain ⟨p', hrun, hp'⟩ := hp.advance
  obtain ⟨q', hrun', hq'⟩ := hq.advance
  rw [hrun, hrun']
  exact .ok (hT 0) ⟨_, _, hp', hq', fun n => hT (n + 1)⟩

def supplied (T : Token → Token → Prop) (hkind : ∀ {t u}, T t u → u.kind = t.kind) : Lockstep where
  state := Supplied T
  token := T
  error := SameComplaint T
  same_kind := hkind
  unexpected h expected := ⟨_, _, expected, h, rfl, rfl⟩
  keep_events h _ _ := h
  alike_peek h := h.alike_peek
  alike_peekSecond h _ := h.alike_peekSecond
  alike_advance h := h.alike_advance

theorem Supplied.alike_parse (hkind : ∀ {t u}, T t u → u.kind = t.kind) (h : Supplied T p q)
    (hp : p.buffer.length ≤ 1) (hq : q.buffer.length ≤ 1) :
    Alike (Supplied T) Eq (SameComplaint T) p.parse q.parse := by
  -- rounds enough for both
  have hp' : p.left.length < p.left.length + q.left.length + 1 := by omega
  have hq' : q.left.length < p.left.length + q.left.length + 1 := by omega
  rw [parse_eq_of_rounds hp hp', parse_eq_of_rounds hq hq']
  exact (supplied T hkind).steady_programIn _ h

end

theorem supplies_ofTokens (tokens : List Token) : (ofTokens tokens).Supplies fun n =>
    tokens.getD n ⟨.eof, "", (ofTokens tokens).endAt⟩ := by
  intro n
  change (tokens.map Except.ok).getD n _ = _
  rw [List.getD_map]

theorem endAt_ofTokens (tokens : List Token) :
    (ofTokens tokens).endAt = tokens.getLast?.elim .start Token.finish := by
  rcases List.eq_nil_or_concat' tokens with rfl | ⟨tokens, t, rfl⟩
  · rfl
  · rw [List.getLast?_concat, endAt, ofTokens, List.map_append, List.foldl_append]
    rfl

end Parser

namespace Token
variable {kind : Kind} {x text rest : List Char} {tokens : List Token} {pos : Position}

theorem Lexeme.lineFeed_not_mem (h : Lexeme kind x) (hk : kind ≠ .newline) : '\n' ∉ x := by
  cases h with
  | @symbol c kind hc =>
    intro hmem
    obtain rfl := List.mem_singleton.mp hmem
    simp [symbols] at hc
    exact hk hc
  | integer _ hdigits =>
    intro hmem
    exact absurd (hdigits _ hmem) (by decide)
  | decimal _ hwhole _ hfraction =>
    simp only [List.mem_append, List.mem_cons, not_or]
    exact ⟨fun hmem => absurd (hwhole _ hmem) (by decide), by decide,
      fun hmem => absurd (hfraction _ hmem) (by decide)⟩
  | identifier hc hname =>
    simp only [List.mem_cons, not_or]
    refine ⟨?_, fun hmem => absurd (hname _ hmem) (by decide)⟩
    rintro rfl
    exact absurd hc (by decide)

theorem Layout.lineFeed_not_mem {b : List Char} (h : Layout rest b) : '\n' ∉ b := by
  induction h with
  | nil => simp
  | blank hc _ ih =>
    simp only [List.mem_cons, not_or]
    refine ⟨?_, ih⟩
    rintro rfl
    simp at hc
  | comment hbody _ =>
    simp only [List.mem_cons, not_or]
    exact ⟨by decide, hbody⟩

theorem finish_eq_after {t : Token} (h : Lexeme t.kind t.lexeme.toList) :
    t.finish = t.pos.after t.lexeme.toList := by
  unfold finish
  split
  · rename_i hk
    rw [(h.eq_of_isTerminator (by rw [hk]; rfl)).2]
    rfl
  · rename_i hk
    rw [Position.after_of_not_mem (h.lineFeed_not_mem hk), String.length_toList]

/-- In a text that begins at `pos`, `rest` is what stands behind the last of the tokens. -/
def StandsBehind (pos : Position) (text : List Char) (tokens : List Token) (rest : List Char) :
    Prop :=
  match tokens.getLast? with
  | none => text = rest
  | some t => ∃ earlier, text = earlier ++ (t.lexeme.toList ++ rest) ∧ t.pos = pos.after earlier

theorem StandsBehind.after_eq (h : StandsBehind pos text tokens rest)
    (hlexeme : ∀ t ∈ tokens, Lexeme t.kind t.lexeme.toList) :
    pos.after text = (tokens.getLast?.elim pos finish).after rest := by
  unfold StandsBehind at h
  cases hlast : tokens.getLast? with
  | none =>
    rw [hlast] at h
    exact congrArg pos.after h
  | some t =>
    rw [hlast] at h
    obtain ⟨earlier, rfl, hpos⟩ := h
    have hfinish := finish_eq_after (hlexeme t (List.mem_of_getLast? hlast))
    rw [Position.after_append, Position.after_append, ← hpos, ← hfinish]
    rfl

theorem Cut.standsBehind (h : Cut pos text tokens rest) :
    ∃ b, Layout rest b ∧ StandsBehind pos text tokens (b ++ rest) := by
  induction h with
  | @stop pos b rest hb => exact ⟨b, hb, rfl⟩
  | @token pos b kind x text tokens rest hb hx _ _ ih =>
    obtain ⟨b', hb', hbehind⟩ := ih
    refine ⟨b', hb', ?_⟩
    unfold StandsBehind at hbehind ⊢
    rw [List.getLast?_cons]
    cases hlast : tokens.getLast? with
    | none =>
      rw [hlast] at hbehind
      refine ⟨b, ?_, rfl⟩
      rw [hbehind, Option.getD_none, String.toList_ofList]
    | some t =>
      rw [hlast] at hbehind
      obtain ⟨earlier, rfl, hpos⟩ := hbehind
      refine ⟨b ++ (x ++ earlier), ?_, ?_⟩
      · simp only [Option.getD_some, List.append_assoc]
      · rw [Position.after_append, Position.after_append]
        exact hpos

end Token

namespace Parser
open Token

/-- The tokens are one and the same, or they are ends of file at the two places. -/
inductive EndMoved (pos pos' : Position) : Token → Token → Prop
  | same {t} : t.kind ≠ .eof → EndMoved pos pos' t t
  | eof : EndMoved pos pos' ⟨.eof, "", pos⟩ ⟨.eof, "", pos'⟩

theorem supplied_without_eof {cut : List Token} (hcut : ∀ t ∈ cut, t.kind ≠ .eof)
    (pos : Position) : Supplied (EndMoved pos (ofTokens cut).endAt)
      (ofTokens (cut ++ [⟨.eof, "", pos⟩])) (ofTokens cut) := by
  have hend : (ofTokens (cut ++ [⟨.eof, "", pos⟩])).endAt = pos := by
    rw [endAt_ofTokens, List.getLast?_concat]
    rfl
  refine ⟨_, _, supplies_ofTokens _, supplies_ofTokens _, fun n => ?_⟩
  rw [hend]
  rcases Nat.lt_or_ge n cut.length with hn | hn
  · rw [List.getD_append _ _ _ _ hn, List.getD_eq_getElem _ _ hn, List.getD_eq_getElem _ _ hn]
    exact .same (hcut _ (List.getElem_mem hn))
  · rw [List.getD_append_right _ _ _ _ hn, List.getD_eq_default _ _ hn]
    -- the end of file of the list, or one made up behind it at the same place
    have hlast : [⟨.eof, "", pos⟩].getD (n - cut.length) ⟨.eof, "", pos⟩ =
        (⟨.eof, "", pos⟩ : Token) := by
      cases n - cut.length <;> rfl
    rw [hlast]
    exact .eof

/-- A missing end of file is as good as one that is there. The tokens of a text, with their end of
file and without it, give the same program or the same complaint, at the same place unless it is
about the end of file: without one it is placed right behind the last token, in front of the layout
that may follow it. -/
theorem parse_without_eof {source : String} {tokens : List Token} (hscan : scan source = .ok tokens) :
    ∃ (cut : List Token) (last : Token) (layout : List Char),
      tokens = cut ++ [last] ∧ last.kind = .eof ∧
      Layout [] layout ∧ StandsBehind .start source.toList cut layout ∧
      ((∃ program, (ofTokens tokens).parse.1 = .ok program ∧
          (ofTokens cut).parse.1 = .ok program) ∨
        ∃ expected found line column column',
          (ofTokens tokens).parse.1 = .error (.unexpected expected found ⟨line, column⟩) ∧
          (ofTokens cut).parse.1 = .error (.unexpected expected found ⟨line, column'⟩) ∧
          column = if found = "end of file" then column' + layout.length else column') := by
  obtain ⟨cut, hcut, rfl⟩ := exists_cut_of_scan hscan
  obtain ⟨layout, hlayout, hbehind⟩ := hcut.standsBehind
  rw [List.append_nil] at hbehind
  refine ⟨cut, _, layout, rfl, rfl, hlayout, hbehind, ?_⟩
  have hplace : Position.start.after source.toList =
      ⟨(ofTokens cut).endAt.line, (ofTokens cut).endAt.column + layout.length⟩ := by
    rw [hbehind.after_eq (lexeme_of_cut hcut), ← endAt_ofTokens,
      Position.after_of_not_mem hlayout.lineFeed_not_mem]
  have hsupplied := supplied_without_eof (Scanner.kind_ne_eof_of_cut hcut)
    (Position.start.after source.toList)
  have halike := hsupplied.alike_parse (fun h => by cases h <;> rfl) (Nat.zero_le 1) (Nat.zero_le 1)
  rw [hplace] at halike ⊢
  generalize (ofTokens (cut ++ [_])).parse = r at halike
  generalize (ofTokens cut).parse = r' at halike
  cases halike with
  | ok heq _ => exact .inl ⟨_, rfl, by rw [heq]⟩
  | error hcomplain _ =>
    obtain ⟨t, u, expected, htu, rfl, rfl⟩ := hcomplain
    cases htu with
    | same hk =>
      have hfound : t.kind.text ≠ "end of file" := fun h => hk (Kind.text_eq_end_iff.mp h)
      exact .inr ⟨expected, t.kind.text, t.pos.line, t.pos.column, t.pos.column, rfl, rfl,
        (if_neg hfound).symm⟩
    | eof => exact .inr ⟨expected, "end of file", _, _, _, rfl, rfl, (if_pos rfl).symm⟩

/-- The comment counts for the column only where the end of file is one of the tokens. -/
theorem parse_without_eof_comment :
    let tokens : List Token := [⟨.identifier "é", "é", ⟨1, 1⟩⟩, ⟨.assign, "=", ⟨1, 3⟩⟩,
      ⟨.leftParen, "(", ⟨1, 5⟩⟩, ⟨.number 12, "12", ⟨1, 6⟩⟩, ⟨.eof, "", ⟨1, 12⟩⟩]
    scan "é = (12 # b" = .ok tokens ∧
    (ofTokens tokens).parse.1 = .error (.unexpected "`)`" "end of file" ⟨1, 12⟩) ∧
    (ofTokens tokens.dropLast).parse.1 = .error (.unexpected "`)`" "end of file" ⟨1, 8⟩) ∧
    ∃ (cut : List Token) (last : Token) (layout : List Char),
      tokens = cut ++ [last] ∧ last.kind = .eof ∧
      Layout [] layout ∧ StandsBehind .start "é = (12 # b".toList cut layout ∧
      ((∃ program, (ofTokens tokens).parse.1 = .ok program ∧
          (ofTokens cut).parse.1 = .ok program) ∨
        ∃ expected found line column column',
          (ofTokens tokens).parse.1 = .error (.unexpected expected found ⟨line, column⟩) ∧
          (ofTokens cut).parse.1 = .error (.unexpected expected found ⟨line, column'⟩) ∧
          column = if found = "end of file" then column' + layout.length else column') := by
  intro tokens
  have hscan : scan "é = (12 # b" = .ok tokens := by decide +kernel
  exact ⟨hscan, by decide +kernel, by decide +kernel, parse_without_eof hscan⟩

end Parser
end LineCalc
