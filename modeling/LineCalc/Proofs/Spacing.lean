import LineCalc.Proofs.FirstError
import LineCalc.Proofs.InStep

/-! Layout does not change meaning. The lexemes of a text may be set with other blanks and comments
between them. The tokens stay the same up to their places, and with them the program and its
values. -/

namespace LineCalc

namespace Token
variable {kind : Kind} {x rest : List Char} {t u : Token}

/-- Numbers and identifiers, which run together when nothing stands between them. -/
def Kind.isWord : Kind → Bool
  | .number _ | .identifier _ => true
  | _ => false

/-- What may stand in front of a token: blanks, and a comment where a line or the file ends. -/
def IsSpacing (kind : Kind) (b : String) : Prop :=
  ∃ blanks comment : List Char, b.toList = blanks ++ comment ∧
    (∀ c ∈ blanks, c ∈ [' ', '\t', '\r']) ∧
    (comment = [] ∨ kind.isTerminator ∧ ∃ body, comment = '#' :: body ∧ '\n' ∉ body)

/-- Each token has its spacing in front of it, and two words in a row are kept apart; `word` tells
whether a word stands before the first token. -/
inductive Spaced : Bool → List String → List Token → Prop
  | nil {word} : Spaced word [] []
  | cons {word b blanks t tokens} : IsSpacing t.kind b →
    (word = true → t.kind.isWord = true → b ≠ "") → Spaced t.kind.isWord blanks tokens →
    Spaced word (b :: blanks) (t :: tokens)

def respaced : List String → List Token → String
  | b :: blanks, t :: tokens => b ++ (t.lexeme ++ respaced blanks tokens)
  | _, _ => ""

def SameText (t u : Token) : Prop := u.kind = t.kind ∧ u.lexeme = t.lexeme

theorem map_eq_of_sameText {tokens tokens' : List Token}
    (h : List.Forall₂ SameText tokens tokens') :
    tokens'.map Token.kind = tokens.map Token.kind ∧
      tokens'.map Token.lexeme = tokens.map Token.lexeme := by
  induction h with
  | nil => exact ⟨rfl, rfl⟩
  | cons htu _ ih =>
    obtain ⟨hkind, hlexeme⟩ := htu
    simp only [List.map_cons, hkind, hlexeme, ih.1, ih.2, and_self]

theorem IsSpacing.layout {b : String} (h : IsSpacing kind b)
    (hend : kind.isTerminator → rest = [] ∨ rest.head? = some '\n') : Layout rest b.toList := by
  obtain ⟨blanks, comment, hb, hblanks, hcomment⟩ := h
  have hlast : Layout rest comment := by
    rcases hcomment with rfl | ⟨hkind, body, rfl, hbody⟩
    · exact .nil
    · exact .comment hbody (hend hkind)
  rw [hb]
  clear hb
  induction blanks with
  | nil => exact hlast
  | cons c blanks ih =>
    obtain ⟨hc, hrest⟩ := List.forall_mem_cons.mp hblanks
    exact .blank hc (ih hrest)

def EndsWord (c : Char) : Prop := ¬ c.isDigit ∧ ¬ Letter.isLetterOrDigit c ∧ c ≠ '.'

theorem IsSpacing.endsWord {b : String} (h : IsSpacing kind b) :
    ∀ c ∈ b.toList.head?, EndsWord c := by
  obtain ⟨blanks, comment, hb, hblanks, hcomment⟩ := h
  intro c hc
  have hchar : c ∈ [' ', '\t', '\r', '#'] := by
    rw [hb] at hc
    cases blanks with
    | cons d blanks =>
      cases hc
      exact List.mem_append_left ['#'] (hblanks c (List.mem_cons_self ..))
    | nil =>
      rcases hcomment with rfl | ⟨-, body, rfl, -⟩
      · cases hc
      · cases hc
        simp
  simp only [List.mem_cons, List.not_mem_nil, or_false] at hchar
  rcases hchar with rfl | rfl | rfl | rfl <;> exact ⟨by decide, by decide, by decide⟩

theorem endsWord_of_symbol {c : Char} (h : (c, kind) ∈ symbols) : EndsWord c := by
  have hall : ∀ s ∈ symbols, ¬ s.1.isDigit ∧ ¬ Letter.isLetterOrDigit s.1 ∧ s.1 ≠ '.' := by
    decide
  exact hall _ h

theorem Lexeme.word (h : Lexeme kind x) (hrest : kind.isWord → ∀ c ∈ rest.head?, EndsWord c) :
    Word kind x rest := by
  cases h with
  | symbol hc => exact .symbol hc
  | integer hne hdigits hx =>
    obtain rfl := hx.unique (Numeral.isNearest_toNumber x [])
    have hstop := hrest rfl
    refine .integer hne hdigits (fun c hc => (hstop c hc).1) fun c later heq => ?_
    have hpoint : EndsWord '.' := hstop '.' (by rw [heq]; rfl)
    exact absurd rfl hpoint.2.2
  | @decimal whole fraction _ hne hdigits hne' hdigits' hx =>
    obtain rfl := hx.unique (Numeral.isNearest_toNumber whole fraction)
    exact .decimal hne hdigits hne' hdigits' fun c hc => (hrest rfl c hc).1
  | identifier hc hname => exact .identifier hc hname fun c hc => (hrest rfl c hc).2.1

theorem lexeme_of_cut {pos : Position} {text : List Char} {tokens : List Token}
    (h : Cut pos text tokens rest) : ∀ t ∈ tokens, Lexeme t.kind t.lexeme.toList := by
  induction h with
  | stop _ => simp
  | token _ hx _ _ ih =>
    refine List.forall_mem_cons.mpr ⟨?_, ih⟩
    rw [String.toList_ofList]
    exact hx

theorem endsWord_respaced {blanks : List String} {cut : List Token} {pos : Position}
    (h : Spaced true blanks (cut ++ [⟨.eof, "", pos⟩]))
    (hcut : ∀ t ∈ cut, Lexeme t.kind t.lexeme.toList) :
    ∀ c ∈ (respaced blanks (cut ++ [⟨.eof, "", pos⟩])).toList.head?, EndsWord c := by
  cases cut with
  | nil =>
    cases h with
    | @cons _ b _ _ _ hb _ hrest =>
      cases hrest
      have htext : respaced [b] [⟨.eof, "", pos⟩] = b := by simp [respaced]
      rw [List.nil_append, htext]
      exact hb.endsWord
  | cons t cut =>
    cases h with
    | @cons _ b blanks _ _ hb hne _ =>
      rw [List.cons_append, respaced, String.toList_append, String.toList_append]
      cases hchars : b.toList with
      | cons d chars =>
        have hend := hb.endsWord
        rw [hchars] at hend
        exact hend
      | nil =>
        have hempty : b = "" := String.toList_eq_nil_iff.mp hchars
        have hx := hcut t (List.mem_cons_self ..)
        generalize t.kind = kind at hx hne
        generalize t.lexeme.toList = chars at hx
        cases hx with
        | symbol hc =>
          rintro c ⟨⟩
          exact endsWord_of_symbol hc
        | _ => exact absurd hempty (hne rfl rfl)

end Token

namespace Scanner
open Token

theorem items_respaced {word : Bool} {blanks : List String} {cut : List Token} {last : Position}
    (h : Spaced word blanks (cut ++ [⟨.eof, "", last⟩]))
    (hcut : ∀ t ∈ cut, Lexeme t.kind t.lexeme.toList) (pos : Position) :
    ∃ tokens : List Token,
      items ⟨(respaced blanks (cut ++ [⟨.eof, "", last⟩])).toList, pos, false⟩ = tokens.map .ok ∧
      List.Forall₂ SameText (cut ++ [⟨.eof, "", last⟩]) tokens := by
  induction cut generalizing word blanks pos with
  | nil =>
    cases h with
    | @cons _ b _ _ _ hb _ hrest =>
      cases hrest
      have htext : respaced [b] [⟨.eof, "", last⟩] = b := by simp [respaced]
      rw [List.nil_append, htext, items_layout (hb.layout fun _ => .inl rfl)]
      exact ⟨[_], rfl, .cons ⟨rfl, rfl⟩ .nil⟩
  | cons t cut ih =>
    cases h with
    | @cons _ b blanks _ _ hb _ hrest =>
      obtain ⟨hx, hcut⟩ := List.forall_mem_cons.mp hcut
      have hend : t.kind.isWord → ∀ c ∈ (respaced blanks (cut ++ [⟨.eof, "", last⟩])).toList.head?,
          EndsWord c := by
        intro hword
        rw [hword] at hrest
        exact endsWord_respaced hrest hcut
      have hword := hx.word hend
      have hlayout : Layout
          (t.lexeme.toList ++ (respaced blanks (cut ++ [⟨.eof, "", last⟩])).toList) b.toList := by
        refine hb.layout fun hkind => .inr ?_
        rw [(hx.eq_of_isTerminator hkind).2]
        rfl
      obtain ⟨tokens, hitems, hsame⟩ := ih hrest hcut ((pos.after b.toList).after t.lexeme.toList)
      refine ⟨⟨t.kind, t.lexeme, pos.after b.toList⟩ :: tokens, ?_, .cons ⟨rfl, rfl⟩ hsame⟩
      rw [List.cons_append, respaced, String.toList_append, String.toList_append,
        items_word hlayout hword, hitems, String.ofList_toList, List.map_cons]

end Scanner

namespace Token
variable {source : String} {tokens : List Token}

theorem exists_cut_of_scan (h : scan source = .ok tokens) :
    ∃ cut, Cut .start source.toList cut [] ∧
      tokens = cut ++ [⟨.eof, "", Position.start.after source.toList⟩] := by
  obtain ⟨cut, rest, hcut, hrest⟩ := exists_cut .start source.toList
  cases rest with
  | nil =>
    rw [scan_of_cut_nil hcut] at h
    exact ⟨cut, hcut, (Except.ok.inj h).symm⟩
  | cons c rest =>
    obtain ⟨before, -, hscan⟩ := scan_of_cut_cons hcut (hrest c rfl)
    cases hscan.symm.trans h

theorem mapM_ok (tokens : List Token) :
    (tokens.map (Except.ok (ε := Error))).mapM id = .ok tokens := by
  induction tokens with
  | nil => rfl
  | cons t tokens ih =>
    rw [List.map_cons, List.mapM_cons, ih]
    rfl

end Token

namespace Program
open Token LineCalc.Parser
variable {source : String} {tokens : List Token}

theorem ofSource_of_scan (h : scan source = .ok tokens) :
    (∃ program, ofSource source = .ok program) ∨
      ∃ (t : Token) (expected : String), ofSource source = .error (t.unexpected expected) := by
  obtain ⟨hitems, t, ht, heof⟩ := Scanner.items_of_scan_ok h
  have hparse : ofSource source = (ofTokens tokens).parse.1 := by
    rw [ofSource, hitems]
    rfl
  have hverdict : ProgramVerdict (fun _ => True) tokens := verdict_program fun _ _ => trivial
  rw [hparse]
  cases hverdict with
  | accepts us u vs program d heq _ _ houtcome =>
    refine .inl ⟨program, ?_⟩
    rw [heq, ← List.singleton_append, ← List.append_assoc]
    exact houtcome.parse_ofTokens vs
  | refuses us u vs expected heq _ houtcome =>
    refine .inr ⟨u, expected, ?_⟩
    rw [heq, ← List.singleton_append, ← List.append_assoc]
    exact houtcome.parse_ofTokens vs
  | tooDeep u _ houtcome =>
    have hdeep := houtcome.parse_ofTokens []
    rw [List.append_nil] at hdeep
    exact .inr ⟨u, _, hdeep⟩
  | lacks hkind _ => exact absurd heof (hkind t ht)

theorem unexpected_of_sameError {expected found : String} {pos : Position} {e : Error}
    (h : SameError SameText (.unexpected expected found pos) e) :
    ∃ pos', e = .unexpected expected found pos' := by
  generalize he : Error.unexpected expected found pos = e₀ at h
  cases h with
  | refl => exact ⟨pos, he.symm⟩
  | @unexpected t u expected' htu =>
    obtain ⟨rfl, rfl, rfl⟩ := Error.unexpected.inj he
    refine ⟨u.pos, ?_⟩
    rw [← htu.1]
    rfl

theorem run_of_error {e : Error} (h : ofSource source = .error e) : run source = .error e := by
  unfold run
  rw [h]
  rfl

/-- A text set anew has the same kinds and lexemes in the same order. It is read as the same
program, with the same run, or both texts are refused with the same complaint. -/
theorem respaced_keeps_meaning {blanks : List String} (hscan : scan source = .ok tokens)
    (hspaced : Spaced false blanks tokens) :
    (∃ tokens', scan (respaced blanks tokens) = .ok tokens' ∧
      tokens'.map Token.kind = tokens.map Token.kind ∧
      tokens'.map Token.lexeme = tokens.map Token.lexeme) ∧
    ((∃ program, ofSource source = .ok program ∧
        ofSource (respaced blanks tokens) = .ok program ∧
        run (respaced blanks tokens) = run source) ∨
      ∃ expected found pos pos',
        ofSource source = .error (.unexpected expected found pos) ∧
        ofSource (respaced blanks tokens) = .error (.unexpected expected found pos') ∧
        run source = .error (.unexpected expected found pos) ∧
        run (respaced blanks tokens) = .error (.unexpected expected found pos')) := by
  have hitems := (Scanner.items_of_scan_ok hscan).1
  obtain ⟨cut, hcut, htokens⟩ := exists_cut_of_scan hscan
  obtain ⟨tokens', hitems', hsame⟩ :=
    Scanner.items_respaced (htokens ▸ hspaced) (lexeme_of_cut hcut) .start
  rw [← htokens] at hitems' hsame
  have hscan' : scan (respaced blanks tokens) = .ok tokens' := by
    change (Scanner.items ⟨(respaced blanks tokens).toList, .start, false⟩).mapM id = _
    rw [hitems', mapM_ok]
  refine ⟨⟨tokens', hscan', map_eq_of_sameText hsame⟩, ?_⟩
  -- places apart, both parsers read the same stream
  have hmatched : Matched SameText { unread := (Scanner.ofSource source).items }
      { unread := (Scanner.ofSource (respaced blanks tokens)).items } := by
    refine ⟨?_, rfl, rfl⟩
    change List.Forall₂ (SameItem SameText) (Scanner.ofSource source).items
      (Scanner.items ⟨(respaced blanks tokens).toList, .start, false⟩)
    rw [hitems, hitems', List.forall₂_map_left_iff, List.forall₂_map_right_iff]
    exact hsame.imp fun t u htu => .ok htu
  have halike := InStep.alike_parse (I := matched SameText And.left) hmatched
  rcases ofSource_of_scan hscan with ⟨program, hok⟩ | ⟨t, expected, herror⟩
  · have hok' : ofSource (respaced blanks tokens) = .ok program := halike.ok_fst hok
    refine .inl ⟨program, hok, hok', ?_⟩
    unfold run
    rw [hok, hok']
  · obtain ⟨e, herror', hsimilar⟩ := halike.error_fst herror
    obtain ⟨pos', rfl⟩ := unexpected_of_sameError hsimilar
    exact .inr ⟨expected, t.kind.text, t.pos, pos', herror, herror', run_of_error herror,
      run_of_error herror'⟩

theorem respaced_keeps_meaning_comments :
    let tokens : List Token :=
      [⟨.identifier "a", "a", ⟨1, 1⟩⟩, ⟨.assign, "=", ⟨1, 2⟩⟩, ⟨.identifier "b", "b", ⟨1, 3⟩⟩,
        ⟨.newline, "\n", ⟨1, 4⟩⟩, ⟨.identifier "a", "a", ⟨2, 1⟩⟩, ⟨.identifier "c", "c", ⟨2, 3⟩⟩,
        ⟨.eof, "", ⟨2, 4⟩⟩]
    let blanks : List String := ["\t", " ", "", " # b\r", "  ", "\r", "#"]
    scan "a=b\na c" = .ok tokens ∧ Spaced false blanks tokens ∧
    respaced blanks tokens = "\ta =b # b\r\n  a\rc#" ∧
    (∃ tokens', scan (respaced blanks tokens) = .ok tokens' ∧
      tokens'.map Token.kind = tokens.map Token.kind ∧
      tokens'.map Token.lexeme = tokens.map Token.lexeme) ∧
    ((∃ program, ofSource "a=b\na c" = .ok program ∧
        ofSource (respaced blanks tokens) = .ok program ∧
        run (respaced blanks tokens) = run "a=b\na c") ∨
      ∃ expected found pos pos',
        ofSource "a=b\na c" = .error (.unexpected expected found pos) ∧
        ofSource (respaced blanks tokens) = .error (.unexpected expected found pos') ∧
        run "a=b\na c" = .error (.unexpected expected found pos) ∧
        run (respaced blanks tokens) = .error (.unexpected expected found pos')) := by
  intro tokens blanks
  have hscan : scan "a=b\na c" = .ok tokens := by decide +kernel
  have hblank {kind : Kind} {b : String} (hb : ∀ c ∈ b.toList, c ∈ [' ', '\t', '\r']) :
      IsSpacing kind b := ⟨b.toList, [], (List.append_nil _).symm, hb, .inl rfl⟩
  have hspaced : Spaced false blanks tokens := by
    refine .cons (hblank (by simp)) (by simp) ?_
    refine .cons (hblank (by simp)) (by simp [Kind.isWord]) ?_
    refine .cons (hblank (by simp)) (by simp [Kind.isWord]) (.cons ?_ (by simp [Kind.isWord]) ?_)
    · exact ⟨[' '], ['#', ' ', 'b', '\r'], rfl, by simp,
        .inr ⟨rfl, [' ', 'b', '\r'], rfl, by simp⟩⟩
    refine .cons (hblank (by simp)) (by simp [Kind.isWord]) ?_
    refine .cons (hblank (by simp)) (by simp) (.cons ?_ (by simp [Kind.isWord]) .nil)
    exact ⟨[], ['#'], rfl, by simp, .inr ⟨rfl, [], rfl, by simp⟩⟩
  exact ⟨hscan, hspaced, by decide +kernel, respaced_keeps_meaning hscan hspaced⟩

end Program
end LineCalc
