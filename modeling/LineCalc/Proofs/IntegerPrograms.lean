import Mathlib
import LineCalc.Proofs.Acceptance
import LineCalc.Proofs.Faults
import LineCalc.Proofs.Integers
import LineCalc.Proofs.Spacing
import LineCalc.Proofs.Variables

/-! Programs of whole numbers. A program without division has a meaning in the integers. As long as
nothing that it computes is larger than `2 ^ 53`, a run follows this meaning: every number that it
computes is the integer, a zero of either sign being the integer zero, and every line that it
prints is the text of the integer. -/

namespace LineCalc

def Number.integer (x : Number) : ℤ := ⌊x.value⌋

theorem Number.IsExactly.integer_eq {x : Number} {n : ℤ} (h : x.IsExactly n) : x.integer = n := by
  rw [integer, h.value_eq, Int.floor_intCast]

namespace Token
open Scanner
variable {t : Token} {x : Number} {source : String} {tokens : List Token}

def spelled (t : Token) : ℚ := (splitNumeral t.lexeme.toList).1.decimal.value

theorem Lexeme.toNumber_eq {text : List Char} (h : Lexeme (.number x) text) :
    (splitNumeral text).1.toNumber = x := by
  have hdigits {whole rest : List Char} (hwhole : ∀ c ∈ whole, c.isDigit)
      (hrest : ∀ c ∈ rest.head?, ¬ c.isDigit) :
      (splitNumeral (whole ++ rest)).1 = ⟨false, whole, (splitFraction rest).1, none⟩ := by
    rw [splitNumeral, takeWhile_append_stop hwhole hrest, dropWhile_append_stop hwhole hrest]
  cases h with
  | integer _ hwhole hx =>
    obtain rfl := hx.unique (Numeral.isNearest_toNumber text [])
    have hnumeral : (splitNumeral (text ++ [])).1 = ⟨false, text, [], none⟩ :=
      hdigits hwhole (by simp)
    rw [List.append_nil] at hnumeral
    rw [hnumeral]
  | @decimal whole fraction _ _ hwhole hne hfraction hx =>
    obtain rfl := hx.unique (Numeral.isNearest_toNumber whole fraction)
    have hpoint : splitFraction ('.' :: (fraction ++ [])) = (fraction, []) :=
      splitFraction_point hne hfraction (by simp)
    rw [List.append_nil] at hpoint
    rw [hdigits hwhole (dot_stop fraction), hpoint]
  | symbol hc => simp [symbols] at hc

theorem isExactly_of_spelled {n : ℕ} (hlexeme : Lexeme t.kind t.lexeme.toList)
    (hkind : t.kind = .number x) (hspelled : t.spelled = n) (hn : n ≤ 2 ^ 53) :
    x.IsExactly (n : ℤ) := by
  rw [hkind] at hlexeme
  have hr : Representable (splitNumeral t.lexeme.toList).1.decimal.value := by
    change Representable t.spelled
    rw [hspelled]
    exact_mod_cast representable_intCast (n := n) (by simpa using hn)
  have hexact := Numeral.isExactly_toNumber rfl hr
  rw [hlexeme.toNumber_eq] at hexact
  change x.IsExactly t.spelled at hexact
  rw [hspelled] at hexact
  exact_mod_cast hexact

theorem lexeme_of_scan (hscan : scan source = .ok tokens) (ht : t ∈ tokens)
    (hkind : t.kind ≠ .eof) : Lexeme t.kind t.lexeme.toList := by
  obtain ⟨cut, hcut, rfl⟩ := exists_cut_of_scan hscan
  rcases List.mem_append.mp ht with ht | ht
  · exact lexeme_of_cut hcut t ht
  · rw [List.mem_singleton.mp ht] at hkind
    exact absurd rfl hkind

end Token

/-- The operation on integers. Division is left out of account: no program here divides. -/
def BinaryOp.integer : BinaryOp → ℤ → ℤ → ℤ
  | .add, a, b => a + b
  | .sub, a, b => a - b
  | .mul, a, b => a * b
  | .div, a, b => a / b

namespace Expr

def integer (vars : String → ℤ) : Expr → ℤ
  | num x => x.integer
  | var name => vars name
  | unary .neg e => -e.integer vars
  | binary op l r => op.integer (l.integer vars) (r.integer vars)

def isQuotient : Expr → Bool
  | binary .div _ _ => true
  | _ => false

end Expr

def Statement.rebind (vars : String → ℤ) : Statement → String → ℤ
  | .assign name e => Function.update vars name (e.integer vars)
  | .expr _ => vars

namespace Program

def integers (vars : String → ℤ) : Program → List ℤ
  | [] => []
  | s :: p => s.body.integer vars :: integers (s.rebind vars) p

/-- The exact values of all expressions, and of all that they are made of, are within the limit. -/
def StaysWithin (limit : ℕ) (vars : String → ℤ) : Program → Prop
  | [] => True
  | s :: p => (∀ e ∈ s.body.postorder, (e.integer vars).natAbs ≤ limit) ∧
    StaysWithin limit (s.rebind vars) p

end Program

def Store.Tracks (s : Store) (vars : String → ℤ) : Prop :=
  ∀ name x, s.get? name = some x → x.IsExactly (vars name)

section
variable {s : Store} {vars : String → ℤ} {x y : Number}

theorem Store.Tracks.set (h : s.Tracks vars) {n : ℤ} (hx : x.IsExactly n) (name : String) :
    (s.set name x).Tracks (Function.update vars name n) := by
  intro other y hy
  rw [get?_set] at hy
  split at hy
  · rename_i heq
    subst heq
    rw [Function.update_self]
    obtain rfl := Option.some.inj hy
    exact hx
  · rename_i hne
    rw [Function.update_of_ne (Ne.symm hne)]
    exact h other y hy

theorem BinaryOp.isExactly_compute {op : BinaryOp} {a b : ℤ} (hop : op ≠ .div)
    (hx : x.IsExactly a) (hy : y.IsExactly b) (h : (op.integer a b).natAbs ≤ 2 ^ 53) :
    (op.compute x y).IsExactly (op.integer a b) := by
  have hr := representable_intCast h
  cases op with
  | add =>
    rw [integer, Int.cast_add] at hr ⊢
    exact hx.add hy hr
  | sub =>
    rw [integer, Int.cast_sub] at hr ⊢
    exact hx.sub hy hr
  | mul =>
    rw [integer, Int.cast_mul] at hr ⊢
    exact hx.mul hy hr
  | div => exact absurd rfl hop

theorem Expr.yields_integer {e : Expr} (hs : s.Tracks vars)
    (hnames : ∀ name ∈ e.names, s.contains name)
    (hliterals : ∀ x, num x ∈ e.postorder → x.IsExactly x.integer)
    (hquotient : ∀ n ∈ e.postorder, ¬ n.isQuotient)
    (hwithin : ∀ n ∈ e.postorder, (n.integer vars).natAbs ≤ 2 ^ 53) :
    ∃ x, e.Yields s x ∧ x.IsExactly (e.integer vars) := by
  induction e with
  | num x =>
    have hx := hliterals x (List.mem_singleton.mpr rfl)
    exact ⟨x, .num hx.isFinite, hx⟩
  | var name =>
    have hname := hnames name (List.mem_singleton.mpr rfl)
    rw [Store.contains_eq_isSome_get?] at hname
    obtain ⟨x, hx⟩ := Option.isSome_iff_exists.mp hname
    exact ⟨x, .var hx, hs name x hx⟩
  | unary op e ih =>
    cases op
    have hinner {P : Expr → Prop} (h : ∀ n ∈ (unary .neg e).postorder, P n) :
        ∀ n ∈ e.postorder, P n := fun n hn => h n (List.mem_append_left _ hn)
    obtain ⟨x, hx, hexact⟩ := ih hnames (fun x hx => hliterals x (List.mem_append_left _ hx))
      (hinner hquotient) (hinner hwithin)
    refine ⟨-x, .neg hx, ?_⟩
    rw [integer, Int.cast_neg]
    exact hexact.neg
  | binary op l r ihl ihr =>
    have hleft {n : Expr} (hn : n ∈ l.postorder) : n ∈ (binary op l r).postorder :=
      List.mem_append_left _ hn
    have hright {n : Expr} (hn : n ∈ r.postorder) : n ∈ (binary op l r).postorder :=
      List.mem_append_right _ (List.mem_append_left _ hn)
    obtain ⟨hnamesl, hnamesr⟩ := List.forall_mem_append.mp hnames
    obtain ⟨x, hx, hexactx⟩ := ihl hnamesl (fun x hx => hliterals x (hleft hx))
      (fun n hn => hquotient n (hleft hn)) fun n hn => hwithin n (hleft hn)
    obtain ⟨y, hy, hexacty⟩ := ihr hnamesr (fun x hx => hliterals x (hright hx))
      (fun n hn => hquotient n (hright hn)) fun n hn => hwithin n (hright hn)
    have hnode := mem_postorder (binary op l r)
    have hop : op ≠ .div := by
      rintro rfl
      exact hquotient _ hnode rfl
    have hresult := BinaryOp.isExactly_compute hop hexactx hexacty (hwithin _ hnode)
    exact ⟨_, .binary hx hy (fun hzero => hop hzero.1) hresult.isFinite, hresult⟩

end

namespace Session
open Program
variable {m m' : Session} {vars : String → ℤ} {s : Statement} {p : Program} {x : Number}

theorem tracks_of_exec (hm : m.store.Tracks vars) (hx : x.IsExactly (s.body.integer vars))
    (h : s.exec m = .ok (x, m')) : m'.store.Tracks (s.rebind vars) := by
  obtain ⟨-, rfl⟩ := eval_of_exec_ok h
  cases s with
  | assign name e => exact hm.set hx name
  | expr e => exact hm

theorem assignsBeforeUse_tail (hassigned : AssignsBeforeUse m.store (s :: p))
    (h : s.exec m = .ok (x, m')) : AssignsBeforeUse m'.store p := by
  rintro done t rest rfl name hname
  have hfirst : m.Runs [s] [x] m' := .cons h (.nil m')
  rcases hassigned (s :: done) t rest rfl name hname with hstored | htarget
  · exact .inl ((contains_of_runs hfirst).mpr (.inl hstored))
  · rw [mem_targets_cons] at htarget
    refine htarget.imp_left fun htarget => (contains_of_runs hfirst).mpr (.inr ?_)
    exact mem_targets_cons.mpr (.inl htarget)

theorem runs_integers (hm : m.store.Tracks vars) (hassigned : AssignsBeforeUse m.store p)
    (hliterals : ∀ s ∈ p, ∀ x, .num x ∈ s.body.postorder → x.IsExactly x.integer)
    (hquotient : ∀ s ∈ p, ∀ e ∈ s.body.postorder, ¬ e.isQuotient)
    (hwithin : p.StaysWithin (2 ^ 53) vars) :
    ∃ values last, m.Runs p values last ∧
      values.map Number.valueText = (p.integers vars).map toString := by
  induction p generalizing m vars with
  | nil => exact ⟨[], m, .nil m, rfl⟩
  | cons s p ih =>
    obtain ⟨hbody, hrest⟩ := hwithin
    have hnames : ∀ name ∈ s.body.names, m.store.contains name := fun name hname =>
      (hassigned [] s p rfl name hname).resolve_right (by simp [targets])
    obtain ⟨hl, hliterals⟩ := List.forall_mem_cons.mp hliterals
    obtain ⟨hq, hquotient⟩ := List.forall_mem_cons.mp hquotient
    obtain ⟨x, hx, hexact⟩ := Expr.yields_integer hm hnames hl hq hbody
    obtain ⟨m', hexec⟩ : ∃ m', s.exec m = .ok (x, m') := by
      rw [s.exec_eq, Expr.eval_of_yields hx]
      exact ⟨_, rfl⟩
    obtain ⟨values, last, hruns, hlines⟩ := ih (tracks_of_exec hm hexact hexec)
      (assignsBeforeUse_tail hassigned hexec) hliterals hquotient hrest
    refine ⟨x :: values, last, .cons hexec hruns, ?_⟩
    rw [List.map_cons, hlines, hexact.valueText_eq (hbody _ (Expr.mem_postorder s.body))]
    rfl

end Session

namespace Grammar
variable {x : Number}

theorem Derives.number_mem {N : Phrase} {w : List Token.Kind} {e : Expr} {d : ℕ}
    (h : Derives N w e d) (hx : .num x ∈ e.postorder) : .number x ∈ w := by
  induction h with
  | number y =>
    obtain ⟨rfl⟩ := Expr.num.inj (List.mem_singleton.mp hx)
    exact List.mem_singleton.mpr rfl
  | identifier name => cases List.mem_singleton.mp hx
  | negation _ ih =>
    rcases List.mem_append.mp hx with hx | hx
    · exact List.mem_cons_of_mem _ (ih hx)
    · cases List.mem_singleton.mp hx
  | parens _ ih => exact List.mem_cons_of_mem _ (List.mem_append_left _ (ih hx))
  | factor _ ih => exact ih hx
  | term _ ih => exact ih hx
  | product _ _ _ ihl ihr | sum _ _ _ ihl ihr =>
    rcases List.mem_append.mp hx with hx | hx
    · exact List.mem_append_left _ (ihl hx)
    rcases List.mem_append.mp hx with hx | hx
    · exact List.mem_append_right _ (List.mem_cons_of_mem _ (ihr hx))
    · cases List.mem_singleton.mp hx

theorem DerivesStatement.number_mem {w : List Token.Kind} {s : Statement} {d : ℕ}
    (h : DerivesStatement w s d) (hx : .num x ∈ s.body.postorder) : .number x ∈ w := by
  cases h with
  | assign he => exact List.mem_cons_of_mem _ (List.mem_cons_of_mem _ (he.number_mem hx))
  | expr he => exact he.number_mem hx

theorem DerivesProgram.number_mem {w : List Token.Kind} {p : Program} {d : ℕ}
    (h : DerivesProgram w p d) {s : Statement} (hs : s ∈ p) (hx : .num x ∈ s.body.postorder) :
    .number x ∈ w := by
  induction h with
  | empty => cases hs
  | blank _ ih => exact List.mem_cons_of_mem _ (ih hs)
  | line hv _ ih =>
    rcases List.mem_cons.mp hs with rfl | hs
    · exact List.mem_append_left _ (hv.number_mem hx)
    · exact List.mem_append_right _ (List.mem_cons_of_mem _ (ih hs))
  | last hv =>
    rw [List.mem_singleton.mp hs] at hx
    exact hv.number_mem hx

end Grammar

namespace Program
open LineCalc.Parser
variable {source : String} {tokens : List Token} {p : Program}

theorem exists_scan_of_ofSource (hparse : ofSource source = .ok p) :
    ∃ tokens, Token.scan source = .ok tokens := by
  cases hscan : Token.scan source with
  | ok tokens => exact ⟨tokens, rfl⟩
  | error e =>
    obtain ⟨tokens, hitems, hkind, -⟩ := Scanner.items_of_scan_error hscan
    rw [ofSource, hitems] at hparse
    have hverdict : ProgramVerdict (fun _ => True) tokens := verdict_program fun _ _ => trivial
    cases hverdict with
    | accepts us t vs _ _ heq ht _ _ => exact absurd ht (hkind t (by simp [heq]))
    | refuses us t vs expected heq _ houtcome =>
      have hsplit (more : List Token.Item) :
          tokens.map .ok ++ more = (us ++ [t]).map .ok ++ (vs.map .ok ++ more) := by
        rw [heq]
        simp
      rw [hsplit, houtcome.parse_eq] at hparse
      cases hparse
    | tooDeep t _ houtcome => cases hparse.symm.trans (houtcome.parse_eq _)
    | lacks _ houtcome =>
      rw [← List.append_nil (_ ++ _), (houtcome e).parse_eq] at hparse
      cases hparse

theorem exists_derives_of_ofSource (hscan : Token.scan source = .ok tokens)
    (hparse : ofSource source = .ok p) :
    ∃ d, Grammar.DerivesProgram (kindsBeforeEof tokens) p d := by
  have hparse' : (ofTokens tokens).parse.1 = .ok p := by
    rw [← hparse, ofSource, (Scanner.items_of_scan_ok hscan).1]
    rfl
  obtain ⟨d, hderives, -⟩ := exists_derives_of_parse hparse'
  exact ⟨d, hderives⟩

theorem exists_token_of_literal (hscan : Token.scan source = .ok tokens)
    (hparse : ofSource source = .ok p) {s : Statement} (hs : s ∈ p) {x : Number}
    (hx : .num x ∈ s.body.postorder) : ∃ t ∈ tokens, t.kind = .number x := by
  obtain ⟨d, hderives⟩ := exists_derives_of_ofSource hscan hparse
  have hkind := (List.takeWhile_sublist _).subset (hderives.number_mem hs hx)
  exact List.mem_map.mp hkind

/-- A program of whole numbers prints the integers that it means. It may use literals that spell
whole numbers, variables assigned before they are used, sums, differences, products and signs, and
all exact values have to be within `2 ^ 53`, those of literals and of parts of expressions
included. Its literals are then the integers that their tokens spell, and the line of every
statement is the text of its exact value. -/
theorem run_prints_integers {source : String} {p : Program} (hparse : ofSource source = .ok p)
    (hliterals : ∀ t : Token, .ok t ∈ (Scanner.ofSource source).items → ∀ x, t.kind = .number x →
      ∃ n : ℕ, n ≤ 2 ^ 53 ∧ t.spelled = n)
    (hquotient : ∀ s ∈ p, ∀ e ∈ s.body.postorder, ¬ e.isQuotient)
    (hassigned : p.AssignsBeforeUse .empty) (hwithin : p.StaysWithin (2 ^ 53) fun _ => 0) :
    (∀ t : Token, .ok t ∈ (Scanner.ofSource source).items → ∀ x, t.kind = .number x →
      t.spelled = x.integer) ∧
      run source = .ok ((p.integers fun _ => 0).map toString) := by
  obtain ⟨tokens, hscan⟩ := exists_scan_of_ofSource hparse
  have hitems (t : Token) : .ok t ∈ (Scanner.ofSource source).items ↔ t ∈ tokens := by
    simp [(Scanner.items_of_scan_ok hscan).1]
  have hexact : ∀ t : Token, .ok t ∈ (Scanner.ofSource source).items → ∀ x, t.kind = .number x →
      t.spelled = x.integer ∧ x.IsExactly x.integer := by
    intro t ht x hx
    obtain ⟨n, hn, hspelled⟩ := hliterals t ht x hx
    have hlexeme := Token.lexeme_of_scan hscan ((hitems t).mp ht) (by simp [hx])
    have hn := Token.isExactly_of_spelled hlexeme hx hspelled hn
    rw [hn.integer_eq, hspelled]
    exact ⟨rfl, hn⟩
  refine ⟨fun t ht x hx => (hexact t ht x hx).1, ?_⟩
  have hnumbers : ∀ s ∈ p, ∀ x, .num x ∈ s.body.postorder → x.IsExactly x.integer := by
    intro s hs x hx
    obtain ⟨t, ht, hkind⟩ := exists_token_of_literal hscan hparse hs hx
    exact (hexact t ((hitems t).mpr ht) x hkind).2
  have hempty : Store.empty.Tracks fun _ => 0 := by
    intro name x hx
    simp [Store.get?, Store.empty] at hx
  obtain ⟨values, last, hruns, hlines⟩ :=
    Session.runs_integers (m := {}) hempty hassigned hnumbers hquotient hwithin
  rw [← hlines]
  exact run_eq_ok_iff.mpr ⟨p, values, last, hparse, hruns, rfl⟩

/-- The first value is a negative zero, the last one is as large as can be. -/
theorem run_prints_integers_zero :
    let source := "x = 0 * -5\nx - 9007199254740992"
    let p : Program := [.assign "x" (.binary .mul (.num 0) (.unary .neg (.num 5))),
      .expr (.binary .sub (.var "x") (.num 9007199254740992))]
    (ofSource source = .ok p ∧
      (∀ t : Token, .ok t ∈ (Scanner.ofSource source).items → ∀ x, t.kind = .number x →
        ∃ n : ℕ, n ≤ 2 ^ 53 ∧ t.spelled = n) ∧
      .ok ⟨.number 5, "5", ⟨1, 10⟩⟩ ∈ (Scanner.ofSource source).items ∧
      (∀ s ∈ p, ∀ e ∈ s.body.postorder, ¬ e.isQuotient) ∧ p.AssignsBeforeUse .empty ∧
      p.StaysWithin (2 ^ 53) fun _ => 0) ∧
    (p.execute {}).1 = .ok [-0, -9007199254740992] ∧ p.integers (fun _ => 0) = [0, -2 ^ 53] ∧
    (∀ t : Token, .ok t ∈ (Scanner.ofSource source).items → ∀ x, t.kind = .number x →
      t.spelled = x.integer) ∧
    run source = .ok ((p.integers fun _ => 0).map toString) := by
  intro source p
  have hparse : ofSource source = .ok p := by decide +kernel
  have hliterals : ∀ t : Token, .ok t ∈ (Scanner.ofSource source).items → ∀ x, t.kind = .number x →
      ∃ n : ℕ, n ≤ 2 ^ 53 ∧ t.spelled = n := by
    have hwhole : ∀ t ∈ (Scanner.ofSource source).items.filterMap Except.toOption,
        t.spelled.num.toNat ≤ 2 ^ 53 ∧ t.spelled = t.spelled.num.toNat := by decide +kernel
    exact fun t ht x _ => ⟨_, hwhole t (List.mem_filterMap.mpr ⟨_, ht, rfl⟩)⟩
  have hquotient : ∀ s ∈ p, ∀ e ∈ s.body.postorder, ¬ e.isQuotient := by decide +kernel
  have hassigned : p.AssignsBeforeUse .empty := by
    have hrun : run source = .ok ["0", "-9007199254740992"] := by decide +kernel
    obtain ⟨p', values, last, hparse', hruns, -⟩ := run_eq_ok_iff.mp hrun
    rw [Except.ok.inj (hparse.symm.trans hparse')]
    exact Session.assignsBeforeUse_of_runs hruns
  have hwithin : p.StaysWithin (2 ^ 53) fun _ => 0 :=
    ⟨by decide +kernel, by decide +kernel, trivial⟩
  exact ⟨⟨hparse, hliterals, by decide +kernel, hquotient, hassigned, hwithin⟩, by decide +kernel,
    by decide +kernel, run_prints_integers hparse hliterals hquotient hassigned hwithin⟩

end Program
end LineCalc
