import LineCalc.Proofs.Nearest
import LineCalc.Token.Scanner

/-! The words of the language. Layout and lexemes are described apart from the scanner; what the
scanner takes from the front of a text is the layout there, and then the longest lexeme. -/

namespace LineCalc.Token

/-- Layout in front of `rest`: blanks, and perhaps a comment up to the end of its line. -/
inductive Layout (rest : List Char) : List Char → Prop
  | nil : Layout rest []
  | blank {c b} : c ∈ [' ', '\t', '\r'] → Layout rest b → Layout rest (c :: b)
  | comment {body} : '\n' ∉ body → rest = [] ∨ rest.head? = some '\n' → Layout rest ('#' :: body)

def symbols : List (Char × Kind) :=
  [('\n', .newline), ('+', .plus), ('-', .minus), ('*', .star), ('/', .slash), ('=', .assign),
   ('(', .leftParen), (')', .rightParen)]

inductive Lexeme : Kind → List Char → Prop
  | symbol {c kind} : (c, kind) ∈ symbols → Lexeme kind [c]
  | integer {whole x} : whole ≠ [] → (∀ c ∈ whole, c.isDigit) →
    Number.IsNearest (Numeral.spelled whole []) x → Lexeme (.number x) whole
  | decimal {whole fraction x} : whole ≠ [] → (∀ c ∈ whole, c.isDigit) → fraction ≠ [] →
    (∀ c ∈ fraction, c.isDigit) → Number.IsNearest (Numeral.spelled whole fraction) x →
    Lexeme (.number x) (whole ++ '.' :: fraction)
  | identifier {c name} : Letter.isLetter c → (∀ d ∈ name, Letter.isLetterOrDigit d) →
    Lexeme (.identifier (String.ofList (c :: name))) (c :: name)

def IsLongest (x text : List Char) : Prop :=
  ∀ ⦃kind y⦄, Lexeme kind y → y <+: text → y.length ≤ x.length

def Bare (text : List Char) : Prop := ∀ c ∈ text.head?, ¬ isBlank c ∧ c ≠ '#'

section
variable {p : Char → Bool} {u v : List Char}

theorem takeWhile_append_stop (hu : ∀ c ∈ u, p c) (hv : ∀ c ∈ v.head?, ¬ p c) :
    (u ++ v).takeWhile p = u := by
  rw [List.takeWhile_append_of_pos hu]
  cases v with
  | nil => exact List.append_nil u
  | cons c v => rw [List.takeWhile_cons_of_neg (hv c rfl), List.append_nil]

theorem dropWhile_append_stop (hu : ∀ c ∈ u, p c) (hv : ∀ c ∈ v.head?, ¬ p c) :
    (u ++ v).dropWhile p = v := by
  rw [List.dropWhile_append_of_pos hu]
  cases v with
  | nil => rfl
  | cons c v => rw [List.dropWhile_cons_of_neg (hv c rfl)]

theorem head?_dropWhile_stop (p : Char → Bool) (u : List Char) :
    ∀ c ∈ (u.dropWhile p).head?, ¬ p c := by
  intro c hc
  have h := List.head?_dropWhile_not p u
  rw [Option.mem_def.mp hc] at h
  exact Bool.eq_false_iff.mp h

theorem append_stop_inj {u' v' : List Char} (h : u ++ v = u' ++ v') (hu : ∀ c ∈ u, p c)
    (hu' : ∀ c ∈ u', p c) (hv : ∀ c ∈ v.head?, ¬ p c) (hv' : ∀ c ∈ v'.head?, ¬ p c) :
    u = u' ∧ v = v' := by
  have htake := congrArg (List.takeWhile p) h
  have hdrop := congrArg (List.dropWhile p) h
  rw [takeWhile_append_stop hu hv, takeWhile_append_stop hu' hv'] at htake
  rw [dropWhile_append_stop hu hv, dropWhile_append_stop hu' hv'] at hdrop
  exact ⟨htake, hdrop⟩

theorem length_le_of_isPrefix {y : List Char} (hy : ∀ c ∈ y, p c) (hv : ∀ c ∈ v.head?, ¬ p c)
    (h : y <+: u ++ v) : y.length ≤ u.length := by
  induction u generalizing y with
  | nil =>
    cases y with
    | nil => exact Nat.le_refl 0
    | cons c y =>
      obtain ⟨z, rfl⟩ := h
      exact absurd (hy c (List.mem_cons_self ..)) (hv c rfl)
  | cons a u ih =>
    cases y with
    | nil => exact Nat.zero_le _
    | cons c y =>
      have htail : y <+: u ++ v := (List.cons_prefix_cons.mp h).2
      exact Nat.succ_le_succ (ih (fun d hd => hy d (List.mem_cons_of_mem c hd)) htail)

theorem mem_takeWhile {c : Char} (h : c ∈ u.takeWhile p) : p c :=
  List.all_eq_true.mp List.all_takeWhile c h

end

theorem isBlank_iff {c : Char} : isBlank c ↔ c ∈ [' ', '\t', '\r'] := by
  simp [isBlank, or_assoc]

theorem splitLayout_blank {c : Char} (hc : isBlank c) (text : List Char) :
    splitLayout (c :: text) = (c :: (splitLayout text).1, (splitLayout text).2) := by
  simp only [splitLayout, List.takeWhile_cons_of_pos hc, List.dropWhile_cons_of_pos hc]
  split <;> rfl

theorem splitLayout_comment (text : List Char) : splitLayout ('#' :: text) =
    ('#' :: text.takeWhile (· ≠ '\n'), text.dropWhile (· ≠ '\n')) := rfl

theorem splitLayout_of_bare {text : List Char} (h : Bare text) :
    splitLayout text = ([], text) := by
  cases text with
  | nil => rfl
  | cons c text =>
    obtain ⟨hblank, hcomment⟩ := h c rfl
    simp only [splitLayout, List.takeWhile_cons_of_neg hblank, List.dropWhile_cons_of_neg hblank]
    split
    · rename_i heq
      exact absurd (List.cons.inj heq).1 hcomment
    · rfl

theorem splitLayout_sound (text : List Char) : (splitLayout text).1 ++ (splitLayout text).2 = text ∧
    Layout (splitLayout text).2 (splitLayout text).1 ∧ Bare (splitLayout text).2 := by
  induction text with
  | nil => exact ⟨rfl, .nil, by simp [splitLayout, Bare]⟩
  | cons c text ih =>
    by_cases hblank : isBlank c
    · rw [splitLayout_blank hblank]
      exact ⟨congrArg (c :: ·) ih.1, .blank (isBlank_iff.mp hblank) ih.2.1, ih.2.2⟩
    · by_cases hcomment : c = '#'
      · subst hcomment
        rw [splitLayout_comment]
        have hline : ∀ c ∈ (text.dropWhile (· ≠ '\n')).head?, c = '\n' := fun c hc => by
          simpa using head?_dropWhile_stop (· ≠ '\n') text c hc
        refine ⟨congrArg ('#' :: ·) List.takeWhile_append_dropWhile, .comment ?_ ?_, ?_⟩
        · exact fun hmem => by simpa using mem_takeWhile hmem
        · cases hd : text.dropWhile (· ≠ '\n') with
          | nil => exact .inl rfl
          | cons c rest => exact .inr (congrArg some (hline c (by rw [hd]; rfl)))
        · intro c hc
          rw [hline c hc]
          exact ⟨by decide, by decide⟩
      · have hbare : Bare (c :: text) := by
          rintro d ⟨⟩
          exact ⟨hblank, hcomment⟩
        rw [splitLayout_of_bare hbare]
        exact ⟨rfl, .nil, hbare⟩

theorem splitLayout_complete {b rest : List Char} (h : Layout rest b) (hrest : Bare rest) :
    splitLayout (b ++ rest) = (b, rest) := by
  induction h with
  | nil => exact splitLayout_of_bare hrest
  | blank hc _ ih => rw [List.cons_append, splitLayout_blank (isBlank_iff.mpr hc), ih]
  | @comment body hbody hend =>
    have hpos : ∀ c ∈ body, decide (c ≠ '\n') = true := by
      intro c hc
      simp only [ne_eq, decide_not, Bool.not_eq_true', decide_eq_false_iff_not]
      rintro rfl
      exact hbody hc
    have hstop : ∀ c ∈ rest.head?, ¬ decide (c ≠ '\n') = true := by
      intro c hc
      rcases hend with rfl | hend
      · cases hc
      · cases hend.symm.trans hc
        decide
    rw [List.cons_append, splitLayout_comment, takeWhile_append_stop hpos hstop,
      dropWhile_append_stop hpos hstop]

section
variable {c : Char} {kind : Kind} {text : List Char}

theorem symbol?_eq_some : symbol? c = some kind ↔ (c, kind) ∈ symbols := by
  unfold symbol?
  split <;> simp_all [symbols, eq_comm]

theorem plain_of_symbol (h : (c, kind) ∈ symbols) : ¬ c.isDigit ∧ ¬ Letter.isLetter c := by
  simp only [symbols, List.mem_cons, Prod.mk.injEq, List.not_mem_nil, or_false] at h
  rcases h with ⟨rfl, -⟩ | ⟨rfl, -⟩ | ⟨rfl, -⟩ | ⟨rfl, -⟩ | ⟨rfl, -⟩ | ⟨rfl, -⟩ | ⟨rfl, -⟩ | ⟨rfl, -⟩ <;>
    decide

theorem not_isLetter_of_isDigit (h : c.isDigit) : ¬ Letter.isLetter c := by
  obtain ⟨hlow, hhigh⟩ : 48 ≤ c.toNat ∧ c.toNat ≤ 57 := Char.isDigit_iff_toNat.mp h
  have hascii : c.toNat < 0x80 := by omega
  rw [Letter.isLetter, if_pos hascii]
  intro halpha
  rcases (Bool.or_eq_true ..).mp halpha with hcase | hcase
  · have hupper : 65 ≤ c.toNat := UInt32.le_iff_toNat_le.mp (of_decide_eq_true hcase).1
    omega
  · obtain ⟨hge, -⟩ := (Bool.and_eq_true ..).mp hcase
    have hlower : 97 ≤ c.toNat := UInt32.le_iff_toNat_le.mp (of_decide_eq_true hge)
    omega

theorem symbol?_eq_none (h : c.isDigit ∨ Letter.isLetter c) : symbol? c = none := by
  cases hs : symbol? c with
  | none => rfl
  | some kind =>
    obtain ⟨hdigit, hletter⟩ := plain_of_symbol (symbol?_eq_some.mp hs)
    exact absurd h (not_or.mpr ⟨hdigit, hletter⟩)

/-- A lexeme that the text after it does not continue. -/
inductive Word : Kind → List Char → List Char → Prop
  | symbol {c kind rest} : (c, kind) ∈ symbols → Word kind [c] rest
  | integer {whole rest} : whole ≠ [] → (∀ c ∈ whole, c.isDigit) → (∀ c ∈ rest.head?, ¬ c.isDigit) →
    (∀ c later, rest = '.' :: c :: later → ¬ c.isDigit) →
    Word (.number (Numeral.toNumber ⟨false, whole, [], none⟩)) whole rest
  | decimal {whole fraction rest} : whole ≠ [] → (∀ c ∈ whole, c.isDigit) → fraction ≠ [] →
    (∀ c ∈ fraction, c.isDigit) → (∀ c ∈ rest.head?, ¬ c.isDigit) →
    Word (.number (Numeral.toNumber ⟨false, whole, fraction, none⟩)) (whole ++ '.' :: fraction) rest
  | identifier {c name rest} : Letter.isLetter c → (∀ d ∈ name, Letter.isLetterOrDigit d) →
    (∀ d ∈ rest.head?, ¬ Letter.isLetterOrDigit d) →
    Word (.identifier (String.ofList (c :: name))) (c :: name) rest

theorem Word.lexeme {x rest : List Char} (h : Word kind x rest) : Lexeme kind x := by
  cases h with
  | symbol hc => exact .symbol hc
  | integer hne hdigits => exact .integer hne hdigits (Numeral.isNearest_toNumber _ [])
  | decimal hne hdigits hne' hdigits' =>
    exact .decimal hne hdigits hne' hdigits' (Numeral.isNearest_toNumber _ _)
  | identifier hc hname => exact .identifier hc hname

theorem Lexeme.head (h : Lexeme kind text) : ∃ c tail, text = c :: tail ∧
    ((symbol? c).isSome ∨ c.isDigit ∨ Letter.isLetter c) := by
  cases h with
  | symbol hc => exact ⟨_, [], rfl, .inl (by rw [symbol?_eq_some.mpr hc]; rfl)⟩
  | integer hne hd =>
    obtain ⟨c, tail, rfl⟩ := List.exists_cons_of_ne_nil hne
    exact ⟨c, tail, rfl, .inr (.inl (hd c (List.mem_cons_self ..)))⟩
  | decimal hne hd =>
    obtain ⟨c, tail, rfl⟩ := List.exists_cons_of_ne_nil hne
    exact ⟨c, _, rfl, .inr (.inl (hd c (List.mem_cons_self ..)))⟩
  | identifier hc => exact ⟨_, _, rfl, .inr (.inr hc)⟩

theorem Lexeme.ne_nil (h : Lexeme kind text) : text ≠ [] := by
  obtain ⟨c, tail, rfl, -⟩ := h.head
  exact List.cons_ne_nil c tail

theorem Lexeme.eq_of_isTerminator (h : Lexeme kind text) (hk : kind.isTerminator) :
    kind = .newline ∧ text = ['\n'] := by
  cases h with
  | symbol hc =>
    simp only [symbols, List.mem_cons, Prod.mk.injEq, List.not_mem_nil, or_false] at hc
    rcases hc with ⟨rfl, rfl⟩ | ⟨-, rfl⟩ | ⟨-, rfl⟩ | ⟨-, rfl⟩ | ⟨-, rfl⟩ | ⟨-, rfl⟩ | ⟨-, rfl⟩ | ⟨-, rfl⟩
    · exact ⟨rfl, rfl⟩
    all_goals cases hk
  | _ => cases hk

theorem dot_stop (text : List Char) : ∀ c ∈ ('.' :: text).head?, ¬ c.isDigit := by
  rintro c ⟨⟩
  decide

theorem isDigit_of_isPrefix {y : List Char} (hne : y ≠ []) (hy : ∀ d ∈ y, d.isDigit)
    (h : y <+: c :: text) : c.isDigit := by
  obtain ⟨d, y, rfl⟩ := List.exists_cons_of_ne_nil hne
  obtain ⟨rfl, -⟩ := List.cons_prefix_cons.mp h
  exact hy d (List.mem_cons_self ..)

/-- A lexeme at a run of digits stays within the run, or goes on with a point and digits. -/
theorem Lexeme.prefix_digits {y whole rest : List Char} (hy : Lexeme kind y) (hne : whole ≠ [])
    (hd : ∀ c ∈ whole, c.isDigit) (hrest : ∀ c ∈ rest.head?, ¬ c.isDigit)
    (h : y <+: whole ++ rest) : y.length ≤ whole.length ∨
      ∃ fraction later, fraction ≠ [] ∧ (∀ c ∈ fraction, c.isDigit) ∧
        rest = '.' :: (fraction ++ later) ∧ y.length = whole.length + (fraction.length + 1) := by
  cases hy with
  | symbol => exact .inl (List.length_pos_iff.mpr hne)
  | integer _ hd' => exact .inl (length_le_of_isPrefix hd' hrest h)
  | @decimal whole' fraction _ _ hd' hnf hf =>
    obtain ⟨later, hlater⟩ := h
    rw [List.append_assoc] at hlater
    obtain ⟨rfl, rfl⟩ := append_stop_inj hlater hd' hd (dot_stop _) hrest
    exact .inr ⟨fraction, later, hnf, hf, rfl, List.length_append⟩
  | identifier hc =>
    obtain ⟨d, whole, rfl⟩ := List.exists_cons_of_ne_nil hne
    obtain ⟨rfl, -⟩ := List.cons_prefix_cons.mp h
    exact absurd hc (not_isLetter_of_isDigit (hd _ (List.mem_cons_self ..)))

theorem Word.isLongest {x rest : List Char} (h : Word kind x rest) : IsLongest x (x ++ rest) := by
  intro kind' y hy hprefix
  cases h with
  | symbol hc =>
    obtain ⟨hdigit, hletter⟩ := plain_of_symbol hc
    cases hy with
    | symbol => exact Nat.le_refl 1
    | integer hne hd => exact absurd (isDigit_of_isPrefix hne hd hprefix) hdigit
    | decimal hne hd =>
      exact absurd (isDigit_of_isPrefix hne hd ((List.prefix_append _ _).trans hprefix)) hdigit
    | identifier hc' =>
      obtain ⟨rfl, -⟩ := List.cons_prefix_cons.mp hprefix
      exact absurd hc' hletter
  | integer hne hd hrest hdot =>
    rcases hy.prefix_digits hne hd hrest hprefix with hlen | ⟨fraction, later, hnf, hf, heq, -⟩
    · exact hlen
    · obtain ⟨f, fs, rfl⟩ := List.exists_cons_of_ne_nil hnf
      exact absurd (hf f (List.mem_cons_self ..)) (hdot f _ heq)
  | @decimal whole fraction _ hne hd hnf hf hrest =>
    rw [List.append_assoc] at hprefix
    rw [List.length_append, List.length_cons]
    rcases hy.prefix_digits hne hd (dot_stop _) hprefix with hlen | ⟨fraction', later, -, hf', heq, hlen⟩
    · omega
    · have hfraction : fraction' <+: fraction ++ rest := ⟨later, (List.cons.inj heq).2.symm⟩
      have := length_le_of_isPrefix hf' hrest hfraction
      omega
  | identifier hc hname hrest =>
    have hdigit : ¬ _ := fun hd => not_isLetter_of_isDigit hd hc
    cases hy with
    | symbol => exact Nat.succ_le_succ (Nat.zero_le _)
    | integer hne hd => exact absurd (isDigit_of_isPrefix hne hd hprefix) hdigit
    | decimal hne hd =>
      exact absurd (isDigit_of_isPrefix hne hd ((List.prefix_append _ _).trans hprefix)) hdigit
    | identifier hc' hname' =>
      have htail := (List.cons_prefix_cons.mp hprefix).2
      exact Nat.succ_le_succ (length_le_of_isPrefix hname' hrest htail)

theorem Word.of_isLongest {x rest : List Char} (h : Lexeme kind x)
    (hlongest : IsLongest x (x ++ rest)) : Word kind x rest := by
  -- characters that continue the lexeme would make a longer one
  have hshort {kind' y} (hy : Lexeme kind' (x ++ y)) (hrest : ∃ z, rest = y ++ z) : y = [] := by
    obtain ⟨z, rfl⟩ := hrest
    have hlen := hlongest hy ⟨z, List.append_assoc ..⟩
    rw [List.length_append] at hlen
    exact List.length_eq_zero_iff.mp (by omega)
  have hhead {c} (hc : c ∈ rest.head?) : ∃ z, rest = [c] ++ z := List.head?_eq_some_iff.mp hc
  have hall {p : Char → Bool} {u : List Char} {c : Char} (hu : ∀ d ∈ u, p d) (hc : p c) :
      ∀ d ∈ u ++ [c], p d := List.forall_mem_append.mpr ⟨hu, List.forall_mem_singleton.mpr hc⟩
  cases h with
  | symbol hc => exact .symbol hc
  | integer hne hd hx =>
    obtain rfl := hx.unique (Numeral.isNearest_toNumber x [])
    refine .integer hne hd (fun c hc hdigit => ?_) (fun c later hrest hdigit => ?_)
    · cases hshort (.integer (by simp) (hall hd hdigit) (Numeral.isNearest_toNumber _ [])) (hhead hc)
    · cases hshort (y := ['.', c]) (.decimal hne hd (by simp) (by simpa using hdigit)
        (Numeral.isNearest_toNumber x [c])) ⟨later, hrest⟩
  | @decimal whole fraction _ hne hd hnf hf hx =>
    obtain rfl := hx.unique (Numeral.isNearest_toNumber whole fraction)
    refine .decimal hne hd hnf hf (fun c hc hdigit => ?_)
    have hlonger := Lexeme.decimal hne hd (List.append_ne_nil_of_left_ne_nil hnf [c])
      (hall hf hdigit) (Numeral.isNearest_toNumber whole (fraction ++ [c]))
    rw [← List.cons_append, ← List.append_assoc] at hlonger
    cases hshort hlonger (hhead hc)
  | identifier hc hname =>
    refine .identifier hc hname (fun d hd hletter => ?_)
    cases hshort (.identifier hc (hall hname hletter)) (hhead hd)

theorem splitFraction_eq_nil {rest : List Char}
    (h : ∀ c later, rest = '.' :: c :: later → ¬ c.isDigit) : splitFraction rest = ([], rest) := by
  unfold splitFraction
  split
  · rename_i later
    cases later with
    | nil => rfl
    | cons c later => rw [List.takeWhile_cons_of_neg (h c later rfl), if_pos rfl]
  · rfl

theorem splitFraction_point {fraction rest : List Char} (hne : fraction ≠ [])
    (hf : ∀ c ∈ fraction, c.isDigit) (hrest : ∀ c ∈ rest.head?, ¬ c.isDigit) :
    splitFraction ('.' :: (fraction ++ rest)) = (fraction, rest) := by
  rw [splitFraction, takeWhile_append_stop hf hrest, dropWhile_append_stop hf hrest, if_neg hne]

theorem lex_digits {whole rest : List Char} (hne : whole ≠ []) (hd : ∀ c ∈ whole, c.isDigit)
    (hrest : ∀ c ∈ rest.head?, ¬ c.isDigit) : lex (whole ++ rest) =
      some (.number (Numeral.toNumber ⟨false, whole, (splitFraction rest).1, none⟩),
        whole ++ (if (splitFraction rest).1 = [] then [] else '.' :: (splitFraction rest).1),
        (splitFraction rest).2) := by
  have htake := takeWhile_append_stop hd hrest
  have hdrop := dropWhile_append_stop hd hrest
  obtain ⟨c, whole, rfl⟩ := List.exists_cons_of_ne_nil hne
  have hc := hd c (List.mem_cons_self ..)
  rw [List.cons_append] at htake hdrop ⊢
  rw [lex, symbol?_eq_none (.inl hc)]
  dsimp only
  rw [if_pos hc, splitNumeral, htake, hdrop]
  simp [Numeral.text]

theorem lex_of_word {x rest : List Char} (h : Word kind x rest) :
    lex (x ++ rest) = some (kind, x, rest) := by
  cases h with
  | symbol hc => rw [List.singleton_append, lex, symbol?_eq_some.mpr hc]
  | integer hne hd hrest hdot =>
    rw [lex_digits hne hd hrest, splitFraction_eq_nil hdot, if_pos rfl, List.append_nil]
  | decimal hne hd hnf hf hrest =>
    rw [List.append_assoc, List.cons_append, lex_digits hne hd (dot_stop _),
      splitFraction_point hnf hf hrest, if_neg hnf]
  | identifier hc hname hrest =>
    have hdigit : ¬ _ := fun hd => not_isLetter_of_isDigit hd hc
    rw [List.cons_append, lex, symbol?_eq_none (.inr hc)]
    dsimp only
    rw [if_neg hdigit, if_pos hc, takeWhile_append_stop hname hrest,
      dropWhile_append_stop hname hrest]

theorem exists_word_of_digits {whole rest : List Char} (hne : whole ≠ [])
    (hd : ∀ c ∈ whole, c.isDigit) (hrest : ∀ c ∈ rest.head?, ¬ c.isDigit) :
    ∃ kind x later, whole ++ rest = x ++ later ∧ Word kind x later := by
  by_cases hpoint : ∃ c later, rest = '.' :: c :: later ∧ c.isDigit
  · obtain ⟨c, later, rfl, hc⟩ := hpoint
    have hfraction : (c :: later).takeWhile Char.isDigit ≠ [] := by
      rw [List.takeWhile_cons_of_pos hc]
      exact List.cons_ne_nil _ _
    refine ⟨_, _, _, ?_, .decimal hne hd hfraction (fun _ => mem_takeWhile)
      (head?_dropWhile_stop Char.isDigit (c :: later))⟩
    rw [List.append_assoc, List.cons_append, List.takeWhile_append_dropWhile]
  · refine ⟨_, _, _, rfl, .integer hne hd hrest fun c later heq hc => ?_⟩
    exact hpoint ⟨c, later, heq, hc⟩

theorem word_or_none (c : Char) (text : List Char) :
    (∃ kind x rest, c :: text = x ++ rest ∧ Word kind x rest) ∨
      symbol? c = none ∧ ¬ c.isDigit ∧ ¬ Letter.isLetter c := by
  cases hsymbol : symbol? c with
  | some kind => exact .inl ⟨kind, [c], text, rfl, .symbol (symbol?_eq_some.mp hsymbol)⟩
  | none =>
  by_cases hdigit : c.isDigit
  · have hne : (c :: text).takeWhile Char.isDigit ≠ [] := by
      rw [List.takeWhile_cons_of_pos hdigit]
      exact List.cons_ne_nil _ _
    have hword := exists_word_of_digits hne (fun _ => mem_takeWhile)
      (head?_dropWhile_stop Char.isDigit (c :: text))
    rw [List.takeWhile_append_dropWhile] at hword
    exact .inl hword
  by_cases hletter : Letter.isLetter c
  · have hname : ∀ d ∈ text.takeWhile Letter.isLetterOrDigit, Letter.isLetterOrDigit d :=
      fun _ => mem_takeWhile
    refine .inl ⟨_, _, _, ?_, .identifier hletter hname (head?_dropWhile_stop _ text)⟩
    rw [List.cons_append, List.takeWhile_append_dropWhile]
  exact .inr ⟨rfl, hdigit, hletter⟩

end

end LineCalc.Token
