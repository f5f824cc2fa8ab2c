import LineCalc.Proofs.Lexemes

/-! The scanner cuts a text into layout and lexemes, each lexeme the longest at its place, and
stops at the first character that begins neither. -/

namespace LineCalc
namespace Token
variable {kind : Kind} {x text rest : List Char} {pos : Position}

def Stray (c : Char) : Prop :=
  c ∉ [' ', '\t', '\r', '#', '\n', '+', '-', '*', '/', '=', '(', ')'] ∧
    ¬ c.isDigit ∧ ¬ Letter.isLetter c

/-- `Cut pos text tokens rest`: the text, which begins at `pos`, is layout and the lexemes of the
tokens in turn, up to `rest`. Each lexeme is the longest in front of what was left when it was
cut off. -/
inductive Cut : Position → List Char → List Token → List Char → Prop
  | stop {pos b rest} : Layout rest b → Cut pos (b ++ rest) [] rest
  | token {pos b kind x text tokens rest} : Layout (x ++ text) b → Lexeme kind x →
    IsLongest x (x ++ text) → Cut ((pos.after b).after x) text tokens rest →
    Cut pos (b ++ (x ++ text)) (⟨kind, String.ofList x, pos.after b⟩ :: tokens) rest

theorem stray_iff {c : Char} : Stray c ↔
    (¬ isBlank c ∧ c ≠ '#') ∧ symbol? c = none ∧ ¬ c.isDigit ∧ ¬ Letter.isLetter c := by
  have hsymbol : symbol? c = none ↔ c ∉ ['\n', '+', '-', '*', '/', '=', '(', ')'] := by
    unfold symbol?
    split <;> simp_all
  rw [hsymbol, Stray, isBlank_iff]
  simp only [List.mem_cons, List.not_mem_nil, or_false, not_or, ne_eq, and_assoc]

theorem Stray.not_isPrefix {c : Char} (hc : Stray c) (h : Lexeme kind x) : ¬ x <+: c :: text := by
  obtain ⟨-, hsymbol, hdigit, hletter⟩ := stray_iff.mp hc
  obtain ⟨d, tail, rfl, hd⟩ := h.head
  intro hprefix
  obtain ⟨rfl, -⟩ := List.cons_prefix_cons.mp hprefix
  rcases hd with hd | hd | hd
  · rw [hsymbol] at hd
    cases hd
  · exact hdigit hd
  · exact hletter hd

theorem Lexeme.bare (h : Lexeme kind x) (text : List Char) : Bare (x ++ text) := by
  obtain ⟨d, tail, rfl, hd⟩ := h.head
  rintro c ⟨⟩
  have hlayout : d ∉ [' ', '\t', '\r', '#'] := by
    simp only [List.mem_cons, List.not_mem_nil, or_false]
    rintro (rfl | rfl | rfl | rfl) <;> exact absurd hd (by decide)
  rw [isBlank_iff]
  simp only [List.mem_cons, List.not_mem_nil, or_false, not_or] at hlayout ⊢
  exact ⟨⟨hlayout.1, hlayout.2.1, hlayout.2.2.1⟩, hlayout.2.2.2⟩

/-- Every text is layout only, or begins with layout and a word, or with layout and a stray
character; so what holds of each of these, given the text after the word, holds of all texts. -/
theorem text_induction {P : List Char → Prop} (done : ∀ {b}, Layout [] b → P b)
    (word : ∀ {b kind x rest}, Layout (x ++ rest) b → Word kind x rest → P rest →
      P (b ++ (x ++ rest)))
    (stray : ∀ {b c rest}, Layout (c :: rest) b → Stray c → P (b ++ c :: rest))
    (text : List Char) : P text := by
  induction hn : text.length using Nat.strongRecOn generalizing text with
  | _ n ih =>
    obtain ⟨htext, hlayout, hbare⟩ := splitLayout_sound text
    generalize (splitLayout text).1 = b at htext hlayout
    generalize (splitLayout text).2 = rest at htext hlayout hbare
    subst htext
    cases rest with
    | nil =>
      rw [List.append_nil]
      exact done hlayout
    | cons c rest =>
      rcases word_or_none c rest with ⟨kind, x, later, heq, hword⟩ | hnone
      · rw [heq] at hlayout hn ⊢
        refine word hlayout hword (ih _ ?_ later rfl)
        have hpos := List.length_pos_iff.mpr hword.lexeme.ne_nil
        simp only [List.length_append] at hn
        omega
      · exact stray hlayout (stray_iff.mpr ⟨hbare c rfl, hnone⟩)

end Token

namespace Scanner
open Token
variable {kind : Kind} {c : Char} {b x rest : List Char}

theorem items_of_next_none {s s' : Scanner} (h : s.next = (none, s')) : s.items = [] := by
  rw [items]
  split
  · rfl
  · rename_i heq
    cases h.symm.trans heq

theorem items_of_next_some {s s' : Scanner} {item : Token.Item} (h : s.next = (some item, s')) :
    s.items = item :: s'.items := by
  rw [items]
  split
  · rename_i heq
    cases h.symm.trans heq
  · rename_i heq
    cases h.symm.trans heq
    rfl

theorem items_finished (text : List Char) (pos : Position) : items ⟨text, pos, true⟩ = [] :=
  items_of_next_none rfl

theorem items_layout (hb : Layout [] b) (pos : Position) :
    items ⟨b, pos, false⟩ = [.ok ⟨.eof, "", pos.after b⟩] := by
  have hsplit : splitLayout b = (b, []) := by
    rw [← splitLayout_complete hb (fun c hc => by cases hc), List.append_nil]
  have hnext : next ⟨b, pos, false⟩ =
      (some (.ok ⟨.eof, "", pos.after b⟩), ⟨[], pos.after b, true⟩) := by
    simp only [next, hsplit, Bool.false_eq_true, if_false]
  rw [items_of_next_some hnext, items_finished]

theorem items_word (hb : Layout (x ++ rest) b) (hx : Word kind x rest) (pos : Position) :
    items ⟨b ++ (x ++ rest), pos, false⟩ = .ok ⟨kind, String.ofList x, pos.after b⟩ ::
      items ⟨rest, (pos.after b).after x, false⟩ := by
  have hsplit := splitLayout_complete hb (hx.lexeme.bare rest)
  have hlex := lex_of_word hx
  obtain ⟨c, tail, heq, -⟩ := hx.lexeme.head
  have hcons : x ++ rest = c :: (tail ++ rest) := by rw [heq, List.cons_append]
  rw [hcons] at hsplit hlex
  have hnext : next ⟨b ++ (x ++ rest), pos, false⟩ =
      (some (.ok ⟨kind, String.ofList x, pos.after b⟩), ⟨rest, (pos.after b).after x, false⟩) := by
    rw [hcons]
    simp only [next, hsplit, hlex, Bool.false_eq_true, if_false]
  exact items_of_next_some hnext

theorem items_stray (hb : Layout (c :: rest) b) (hc : Stray c) (pos : Position) :
    items ⟨b ++ c :: rest, pos, false⟩ = [.error (.lexical c (pos.after b))] := by
  obtain ⟨hbare, hsymbol, hdigit, hletter⟩ := stray_iff.mp hc
  have hsplit := splitLayout_complete hb (fun d hd => by cases hd; exact hbare)
  have hlex : lex (c :: rest) = none := by
    rw [lex, hsymbol]
    dsimp only
    rw [if_neg hdigit, if_neg hletter]
  have hnext : next ⟨b ++ c :: rest, pos, false⟩ =
      (some (.error (.lexical c (pos.after b))), ⟨c :: rest, pos.after b, true⟩) := by
    simp only [next, hsplit, hlex, Bool.false_eq_true, if_false]
  rw [items_of_next_some hnext, items_finished]

end Scanner

theorem Position.after_append (pos : Position) (u v : List Char) :
    pos.after (u ++ v) = (pos.after u).after v :=
  List.foldl_append

namespace Token
variable {text rest : List Char} {tokens : List Token} {pos : Position}

theorem Cut.items_eq (h : Cut pos text tokens rest) :
    ∃ b before, text = before ++ (b ++ rest) ∧ Layout rest b ∧
      Scanner.items ⟨text, pos, false⟩ =
        tokens.map .ok ++ Scanner.items ⟨b ++ rest, pos.after before, false⟩ := by
  induction h with
  | @stop pos b rest hb => exact ⟨b, [], rfl, hb, rfl⟩
  | @token pos b kind x text tokens rest hb hx hlongest _ ih =>
    obtain ⟨b', before, htext, hb', hitems⟩ := ih
    refine ⟨b', b ++ (x ++ before), ?_, hb', ?_⟩
    · rw [htext]
      simp only [List.append_assoc]
    · rw [Scanner.items_word hb (.of_isLongest hx hlongest), hitems]
      simp only [Position.after_append, List.map_cons, List.cons_append]

theorem exists_cut (pos : Position) (text : List Char) :
    ∃ tokens rest, Cut pos text tokens rest ∧ ∀ c ∈ rest.head?, Stray c := by
  induction text using text_induction generalizing pos with
  | done hb =>
    have hcut : Cut pos _ [] [] := .stop hb
    rw [List.append_nil] at hcut
    exact ⟨[], [], hcut, fun c hc => by cases hc⟩
  | word hb hx ih =>
    obtain ⟨tokens, rest, hcut, hrest⟩ := ih ((pos.after _).after _)
    exact ⟨_, rest, .token hb hx.lexeme hx.isLongest hcut, hrest⟩
  | stray hb hc => exact ⟨[], _, .stop hb, fun d hd => by cases hd; exact hc⟩

theorem mapM_ok_append (tokens : List Token) (item : Token.Item) :
    (tokens.map Except.ok ++ [item]).mapM id = item.map (tokens ++ [·]) := by
  induction tokens with
  | nil => cases item <;> rfl
  | cons t tokens ih =>
    rw [List.map_cons, List.cons_append, List.mapM_cons, ih]
    cases item <;> rfl

theorem scan_of_cut_nil {source : String} (h : Cut .start source.toList tokens []) :
    scan source = .ok (tokens ++ [⟨.eof, "", Position.start.after source.toList⟩]) := by
  obtain ⟨b, before, htext, hb, hitems⟩ := h.items_eq
  rw [List.append_nil] at htext hitems
  change (Scanner.items ⟨source.toList, .start, false⟩).mapM id = _
  rw [hitems, Scanner.items_layout hb, mapM_ok_append, ← Position.after_append, ← htext]
  rfl

theorem scan_of_cut_cons {source : String} {c : Char}
    (h : Cut .start source.toList tokens (c :: rest)) (hc : Stray c) :
    ∃ before, source.toList = before ++ c :: rest ∧
      scan source = .error (.lexical c (Position.start.after before)) := by
  obtain ⟨b, before, htext, hb, hitems⟩ := h.items_eq
  refine ⟨before ++ b, by rw [htext, List.append_assoc], ?_⟩
  change (Scanner.items ⟨source.toList, .start, false⟩).mapM id = _
  rw [hitems, Scanner.items_stray hb hc, mapM_ok_append, ← Position.after_append]
  rfl

/-- Scanning succeeds exactly on the texts that can be cut to their end, with the tokens of the
cut. Otherwise the character at which the cut ends is reported, with its place; no lexeme begins
there. -/
theorem scan_eq_iff_cut (source : String) :
    (∀ tokens, scan source = .ok tokens ↔
      ∃ cut, Cut .start source.toList cut [] ∧
        tokens = cut ++ [⟨.eof, "", Position.start.after source.toList⟩]) ∧
    (∀ e, scan source = .error e ↔
      ∃ cut before c rest, source.toList = before ++ c :: rest ∧
        Cut .start source.toList cut (c :: rest) ∧ Stray c ∧
        (∀ kind x, Lexeme kind x → ¬ x <+: c :: rest) ∧
        e = .lexical c (Position.start.after before)) := by
  obtain ⟨cut, rest, hcut, hrest⟩ := exists_cut .start source.toList
  refine ⟨fun tokens => ⟨fun h => ?_, ?_⟩, fun e => ⟨fun h => ?_, ?_⟩⟩
  · cases rest with
    | nil =>
      rw [scan_of_cut_nil hcut] at h
      exact ⟨cut, hcut, (Except.ok.inj h).symm⟩
    | cons c rest =>
      obtain ⟨before, -, hscan⟩ := scan_of_cut_cons hcut (hrest c rfl)
      cases hscan.symm.trans h
  · rintro ⟨cut, hcut, rfl⟩
    exact scan_of_cut_nil hcut
  · cases rest with
    | nil => cases (scan_of_cut_nil hcut).symm.trans h
    | cons c rest =>
      have hc := hrest c rfl
      obtain ⟨before, htext, hscan⟩ := scan_of_cut_cons hcut hc
      rw [hscan] at h
      exact ⟨cut, before, c, rest, htext, hcut, hc, fun _ _ hx => hc.not_isPrefix hx,
        (Except.error.inj h).symm⟩
  · rintro ⟨cut, before, c, rest, htext, hcut, hc, -, rfl⟩
    obtain ⟨before', htext', hscan⟩ := scan_of_cut_cons hcut hc
    rw [hscan, List.append_cancel_right (htext.symm.trans htext')]

end Token
end LineCalc
