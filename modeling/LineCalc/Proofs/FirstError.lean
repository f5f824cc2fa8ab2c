import LineCalc.Proofs.Limits
import LineCalc.Proofs.Outcome
import LineCalc.Proofs.Places
import LineCalc.Run

/-! Which error a source text reports. The parser takes a token from the stream only when it needs
it, so errors surface in the order of the text. A misplaced token is the first one that no program
of the grammar can go on with. -/

namespace LineCalc

namespace Scanner
open Token
variable {source : String}

theorem kind_ne_eof_of_cut {pos : Position} {text rest : List Char} {tokens : List Token}
    (h : Cut pos text tokens rest) : ∀ t ∈ tokens, t.kind ≠ .eof := by
  induction h with
  | stop _ => simp
  | token _ hx _ _ ih =>
    refine List.forall_mem_cons.mpr ⟨?_, ih⟩
    rintro rfl
    cases (hx.eq_of_isTerminator rfl).1

theorem items_eq_append (source : String) :
    ∃ (tokens : List Token) (last : Item), (ofSource source).items = tokens.map .ok ++ [last] ∧
      (∀ t ∈ tokens, t.kind ≠ .eof) ∧
      ((∃ t, last = .ok t ∧ t.kind = .eof) ∨ ∃ c pos, last = .error (.lexical c pos)) := by
  obtain ⟨tokens, rest, hcut, hrest⟩ := exists_cut .start source.toList
  obtain ⟨b, before, -, hb, hitems⟩ := hcut.items_eq
  refine ⟨tokens, ?_⟩
  cases rest with
  | nil =>
    rw [List.append_nil, items_layout hb] at hitems
    exact ⟨_, hitems, kind_ne_eof_of_cut hcut, .inl ⟨_, rfl, rfl⟩⟩
  | cons c rest =>
    rw [items_stray hb (hrest c rfl)] at hitems
    exact ⟨_, hitems, kind_ne_eof_of_cut hcut, .inr ⟨c, _, rfl⟩⟩

theorem items_of_scan_ok {tokens : List Token} (h : scan source = .ok tokens) :
    (ofSource source).items = tokens.map .ok ∧ ∃ t ∈ tokens, t.kind = .eof := by
  obtain ⟨cut, last, hitems, -, ⟨t, rfl, ht⟩ | ⟨c, pos, rfl⟩⟩ := items_eq_append source <;>
    change (ofSource source).items.mapM id = _ at h <;> rw [hitems, mapM_ok_append] at h
  · obtain rfl : cut ++ [t] = tokens := Except.ok.inj h
    exact ⟨by rw [hitems, List.map_append, List.map_singleton], t, by simp, ht⟩
  · cases h

theorem items_of_scan_error {e : Error} (h : scan source = .error e) :
    ∃ tokens : List Token, (ofSource source).items = tokens.map .ok ++ [.error e] ∧
      (∀ t ∈ tokens, t.kind ≠ .eof) ∧ ∃ pos, e.pos? = some pos ∧ ∀ t ∈ tokens, t.pos < pos := by
  obtain ⟨tokens, last, hitems, hkind, ⟨t, rfl, ht⟩ | ⟨c, pos, rfl⟩⟩ := items_eq_append source <;>
    change (ofSource source).items.mapM id = _ at h <;> rw [hitems, mapM_ok_append] at h
  · cases h
  · obtain rfl : .lexical c pos = e := Except.error.inj h
    refine ⟨tokens, hitems, hkind, pos, rfl, fun t ht => ?_⟩
    have hpairwise := pairwise_pos_items source
    rw [hitems, List.filterMap_append, List.pairwise_append] at hpairwise
    exact hpairwise.2.2 t.pos (List.mem_filterMap.mpr ⟨.ok t, List.mem_map_of_mem ht, rfl⟩) pos
      (by simp [Item.pos?, Error.pos?])

end Scanner

namespace Parser
open Grammar Token

/-- Reading the stream of a text as it comes is reading the list of its tokens. An error in the text
is reported unless the parser stops before it, and then nothing from there on matters. -/
theorem parse_stream_agrees_with_scan (source : String) :
    (∀ tokens, scan source = .ok tokens →
      Parser.parse { unread := (Scanner.ofSource source).items } = (ofTokens tokens).parse) ∧
    (∀ e, scan source = .error e →
      ∃ (tokens : List Token) (pos : Position) (e' : Error),
        (Scanner.ofSource source).items = tokens.map .ok ++ [.error e] ∧ e.pos? = some pos ∧
        (Parser.parse { unread := (Scanner.ofSource source).items }).1 = .error e' ∧
        (e' = e ∨ ∃ expected found place, e' = .unexpected expected found place ∧ place < pos ∧
          ∀ more, (Parser.parse { unread := tokens.map .ok ++ more }).1 = .error e')) := by
  constructor
  · intro tokens hscan
    rw [(Scanner.items_of_scan_ok hscan).1]
    rfl
  · intro e hscan
    obtain ⟨tokens, hitems, hkind, pos, hpos, hplaces⟩ := Scanner.items_of_scan_error hscan
    have hverdict : ProgramVerdict (· ∈ tokens) tokens := verdict_program fun _ => id
    rw [hitems]
    cases hverdict with
    | accepts us t vs program d heq ht _ _ =>
      exact absurd ht (hkind t (by simp [heq]))
    | refuses us t vs expected heq _ houtcome =>
      have hparse (more : List Item) : (Parser.parse { unread := tokens.map .ok ++ more }).1 =
          .error (t.unexpected expected) := by
        rw [← houtcome.parse_eq (vs.map .ok ++ more), heq]
        simp
      exact ⟨tokens, pos, _, rfl, hpos, hparse _, .inr ⟨expected, t.kind.text, t.pos, rfl,
        hplaces t (by simp [heq]), hparse⟩⟩
    | tooDeep t ht houtcome =>
      exact ⟨tokens, pos, _, rfl, hpos, houtcome.parse_eq _, .inr ⟨_, t.kind.text, t.pos, rfl,
        hplaces t ht, houtcome.parse_eq⟩⟩
    | lacks _ houtcome =>
      refine ⟨tokens, pos, e, rfl, hpos, ?_, .inl rfl⟩
      have hparse := (houtcome e).parse_eq []
      rwa [List.append_nil] at hparse

/-- In the second text the stray character comes after the token that stops the parser. -/
theorem parse_stream_agrees_with_scan_stray_character :
    let tokens : List Token :=
      [⟨.identifier "a", "a", ⟨1, 1⟩⟩, ⟨.leftParen, "(", ⟨1, 3⟩⟩, ⟨.eof, "", ⟨1, 4⟩⟩]
    (scan "a (" = .ok tokens ∧
      Parser.parse { unread := (Scanner.ofSource "a (").items } = (ofTokens tokens).parse) ∧
    scan "a (\n&" = .error (.lexical '&' ⟨2, 1⟩) ∧
      ∃ (tokens : List Token) (pos : Position) (e' : Error),
        (Scanner.ofSource "a (\n&").items = tokens.map .ok ++ [.error (.lexical '&' ⟨2, 1⟩)] ∧
        Error.pos? (.lexical '&' ⟨2, 1⟩) = some pos ∧
        (Parser.parse { unread := (Scanner.ofSource "a (\n&").items }).1 = .error e' ∧
        (e' = .lexical '&' ⟨2, 1⟩ ∨
          ∃ expected found place, e' = .unexpected expected found place ∧ place < pos ∧
            ∀ more, (Parser.parse { unread := tokens.map .ok ++ more }).1 = .error e') := by
  intro tokens
  have hok : scan "a (" = .ok tokens := by decide +kernel
  have herror : scan "a (\n&" = .error (.lexical '&' ⟨2, 1⟩) := by decide +kernel
  exact ⟨⟨hok, (parse_stream_agrees_with_scan "a (").1 _ hok⟩, herror,
    (parse_stream_agrees_with_scan "a (\n&").2 _ herror⟩

theorem parse_of_derives {tokens : List Token} {program : Program} {d : Nat}
    (h : DerivesProgram (kindsBeforeEof tokens) program d) :
    (ofTokens tokens).parse.1 = .ok program ∨
      ∃ t, (ofTokens tokens).parse.1 = .error (tooDeep t) := by
  by_cases hlimit : maxDepth < d ∨ ∃ s ∈ program, maxDepth < s.body.height
  · exact .inr (parse_beyond_limits h hlimit)
  · simp only [not_or, not_exists, not_and, Nat.not_lt] at hlimit
    exact .inl (parse_within_limits h hlimit.1 hlimit.2)

theorem Outcome.parse_ofTokens {zs : List Token} {r : Except Error Program}
    (h : Outcome (zs.map .ok) r) (rest : List Token) : (ofTokens (zs ++ rest)).parse.1 = r := by
  have hparse := h.parse_eq (rest.map .ok)
  rwa [← List.map_append] at hparse

theorem not_derives_of_outcome {zs rest : List Token} {expected : String} {t : Token}
    {program : Program} {d : Nat}
    (h : Outcome (zs.map .ok) (.error (t.unexpected expected)))
    (hexpected : expected ≠ "at most 256 levels of nesting") :
    ¬ DerivesProgram (kindsBeforeEof (zs ++ rest)) program d := by
  intro hderives
  have hparse := h.parse_ofTokens rest
  rcases parse_of_derives hderives with hok | ⟨u, herror⟩
  · cases hok.symm.trans hparse
  · have heq := Except.error.inj (hparse.symm.trans herror)
    exact hexpected (Error.unexpected.inj heq).1

theorem not_beginsProgram_of_outcome {us : List Token} {expected : String} {t : Token}
    (h : Outcome ((us ++ [t]).map .ok) (.error (t.unexpected expected)))
    (hexpected : expected ≠ "at most 256 levels of nesting") :
    ¬ BeginsProgram ((us ++ [t]).map Token.kind) := by
  rintro ⟨w, program, d, hderives⟩
  -- any tokens of the kinds `w` will do
  obtain ⟨ws, rfl⟩ : ∃ ws : List Token, ws.map Token.kind = w :=
    ⟨w.map (⟨·, "", .start⟩), by simp [Function.comp_def]⟩
  rw [← List.map_append] at hderives
  have hkinds := kindsBeforeEof_of_derives hderives (rfl : kindsBeforeEof [] = [])
  rw [List.append_nil] at hkinds
  exact not_derives_of_outcome h hexpected (hkinds ▸ hderives)

/-- A token out of place is the first that does not go on: a program can begin with the tokens in
front of it, and none begins with these and the token. The end of file is out of place where the
tokens in front of it are not a whole program. -/
theorem unexpected_at_first_misfit {source : String} {tokens : List Token} {expected found : String}
    {pos : Position} (hscan : scan source = .ok tokens)
    (hparse : Program.ofSource source = .error (.unexpected expected found pos))
    (hexpected : expected ≠ "at most 256 levels of nesting") :
    ∃ (i : Nat) (t : Token), tokens[i]? = some t ∧ found = t.kind.text ∧ pos = t.pos ∧
      BeginsProgram ((tokens.take i).map Token.kind) ∧
      if t.kind = .eof then ¬ ∃ program d, DerivesProgram ((tokens.take i).map Token.kind) program d
      else ¬ BeginsProgram ((tokens.take (i + 1)).map Token.kind) := by
  obtain ⟨hitems, heof⟩ := Scanner.items_of_scan_ok hscan
  have htokens : (ofTokens tokens).parse.1 = .error (.unexpected expected found pos) := by
    rw [← hparse, Program.ofSource, hitems]
    rfl
  have hverdict : ProgramVerdict (fun _ => True) tokens := verdict_program fun _ _ => trivial
  cases hverdict with
  | accepts us t vs program d heq _ _ houtcome =>
    have hok := houtcome.parse_ofTokens vs
    rw [List.append_assoc, List.singleton_append, ← heq, htokens] at hok
    cases hok
  | tooDeep t _ houtcome =>
    have hdeep := houtcome.parse_ofTokens []
    rw [List.append_nil, htokens, Except.error.injEq] at hdeep
    exact absurd (Error.unexpected.inj hdeep).1 hexpected
  | lacks hkind _ =>
    obtain ⟨t, ht, hk⟩ := heof
    exact absurd hk (hkind t ht)
  | refuses us t vs expected' heq hbegins houtcome =>
    have herror := houtcome.parse_ofTokens vs
    rw [List.append_assoc, List.singleton_append, ← heq, htokens, Except.error.injEq] at herror
    obtain ⟨rfl, rfl, rfl⟩ := Error.unexpected.inj herror
    have htake : tokens.take us.length = us := by rw [heq, List.take_left]
    have htake' : tokens.take (us.length + 1) = us ++ [t] := by
      rw [heq, List.append_cons, List.take_left' (by simp)]
    refine ⟨us.length, t, by simp [heq], rfl, rfl, ?_, ?_⟩
    · rwa [htake]
    · rw [htake, htake']
      split
      -- tokens that are a whole program would not have been refused at the end of file
      · rename_i hk
        rintro ⟨program, d, hderives⟩
        have hkinds : kindsBeforeEof (us ++ [t]) = us.map Token.kind :=
          kindsBeforeEof_of_derives hderives (by rw [kindsBeforeEof_cons, if_pos hk])
        rw [← hkinds, ← List.append_nil (us ++ [t])] at hderives
        exact not_derives_of_outcome houtcome hexpected hderives
      · exact not_beginsProgram_of_outcome houtcome hexpected

theorem unexpected_at_first_misfit_assign :
    let tokens : List Token := [⟨.identifier "a", "a", ⟨1, 1⟩⟩, ⟨.assign, "=", ⟨1, 3⟩⟩,
      ⟨.assign, "=", ⟨1, 5⟩⟩, ⟨.identifier "b", "b", ⟨1, 7⟩⟩, ⟨.eof, "", ⟨1, 8⟩⟩]
    scan "a = = b" = .ok tokens ∧
    Program.ofSource "a = = b" =
      .error (.unexpected "number, identifier, `-` or `(`" "`=`" ⟨1, 5⟩) ∧
    ∃ (i : Nat) (t : Token), tokens[i]? = some t ∧ "`=`" = t.kind.text ∧ ⟨1, 5⟩ = t.pos ∧
      BeginsProgram ((tokens.take i).map Token.kind) ∧
      if t.kind = .eof then ¬ ∃ program d, DerivesProgram ((tokens.take i).map Token.kind) program d
      else ¬ BeginsProgram ((tokens.take (i + 1)).map Token.kind) := by
  intro tokens
  have hscan : scan "a = = b" = .ok tokens := by decide +kernel
  have hparse : Program.ofSource "a = = b" =
      .error (.unexpected "number, identifier, `-` or `(`" "`=`" ⟨1, 5⟩) := by decide +kernel
  exact ⟨hscan, hparse, unexpected_at_first_misfit hscan hparse (by decide)⟩

end Parser
end LineCalc
