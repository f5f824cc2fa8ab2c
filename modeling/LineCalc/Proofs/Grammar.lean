import LineCalc.Program.Basic
import LineCalc.Token.Basic

/-! The grammar of programs, as relations between kinds of tokens and what they spell. The rules
for operators recur on the left, so operators of one precedence group to the left; parentheses
leave no node. Every relation carries a depth: the number of parentheses and signs that enclose
the innermost one, itself included. The grammar puts no limit on the depth or on the trees. -/

namespace LineCalc

def BinaryOp.kind : BinaryOp → Token.Kind
  | .add => .plus
  | .sub => .minus
  | .mul => .star
  | .div => .slash

namespace Grammar

inductive Phrase where
  | factor
  | term
  | expression
  deriving DecidableEq, Repr

/-- The kinds of a phrase, the expression that they spell and their depth. -/
inductive Derives : Phrase → List Token.Kind → Expr → Nat → Prop
  | number (x : Number) : Derives .factor [.number x] (.num x) 0
  | identifier (name : String) : Derives .factor [.identifier name] (.var name) 0
  | negation {w e d} : Derives .factor w e d → Derives .factor (.minus :: w) (.unary .neg e) (d + 1)
  | parens {w e d} :
    Derives .expression w e d → Derives .factor (.leftParen :: (w ++ [.rightParen])) e (d + 1)
  | factor {w e d} : Derives .factor w e d → Derives .term w e d
  | product {op v w l r d d'} : op = .mul ∨ op = .div → Derives .term v l d →
    Derives .factor w r d' → Derives .term (v ++ op.kind :: w) (.binary op l r) (max d d')
  | term {w e d} : Derives .term w e d → Derives .expression w e d
  | sum {op v w l r d d'} : op = .add ∨ op = .sub → Derives .expression v l d →
    Derives .term w r d' → Derives .expression (v ++ op.kind :: w) (.binary op l r) (max d d')

inductive DerivesStatement : List Token.Kind → Statement → Nat → Prop
  | assign {name w e d} : Derives .expression w e d →
    DerivesStatement (.identifier name :: .assign :: w) (.assign name e) d
  | expr {w e d} : Derives .expression w e d → DerivesStatement w (.expr e) d

/-- The kinds of a program, without the end of file that follows them. Only the last statement
may end there instead of with its line. -/
inductive DerivesProgram : List Token.Kind → Program → Nat → Prop
  | empty : DerivesProgram [] [] 0
  | blank {w p d} : DerivesProgram w p d → DerivesProgram (.newline :: w) p d
  | line {v w s p d d'} : DerivesStatement v s d → DerivesProgram w p d' →
    DerivesProgram (v ++ .newline :: w) (s :: p) (max d d')
  | last {v s d} : DerivesStatement v s d → DerivesProgram v [s] d

/-- A token of kind `k` does not go on with a statement of the kinds `v`. -/
structure Stops (v : List Token.Kind) (k : Token.Kind) : Prop where
  no_operator : ∀ op : BinaryOp, k ≠ op.kind
  no_assign : ∀ name, v = [.identifier name] → k ≠ .assign

def IsInner : Token.Kind → Prop
  | .assign | .newline | .eof => False
  | _ => True

theorem isInner_kind (op : BinaryOp) : IsInner op.kind := by
  cases op <;> trivial

theorem Derives.isInner {N : Phrase} {w : List Token.Kind} {e : Expr} {d : Nat}
    (h : Derives N w e d) : ∀ k ∈ w, IsInner k := by
  induction h with
  | number x => simp [IsInner]
  | identifier name => simp [IsInner]
  | negation _ ih => simpa [IsInner] using ih
  | parens _ ih =>
    simp only [List.mem_cons, List.mem_append, List.not_mem_nil, or_false]
    rintro k (rfl | hk | rfl)
    · trivial
    · exact ih k hk
    · trivial
  | factor _ ih => exact ih
  | term _ ih => exact ih
  | product _ _ _ ihl ihr | sum _ _ _ ihl ihr =>
    simp only [List.mem_append, List.mem_cons]
    rintro k (hk | rfl | hk)
    · exact ihl k hk
    · exact isInner_kind _
    · exact ihr k hk

theorem Derives.ne_nil {N : Phrase} {w : List Token.Kind} {e : Expr} {d : Nat}
    (h : Derives N w e d) : w ≠ [] := by
  induction h with
  | factor _ ih => exact ih
  | term _ ih => exact ih
  | _ => simp

theorem DerivesStatement.isInner_headD {v : List Token.Kind} {s : Statement} {d : Nat}
    (h : DerivesStatement v s d) (rest : List Token.Kind) :
    IsInner ((v ++ rest).headD .eof) := by
  cases h with
  | assign _ => trivial
  | expr he =>
    cases v with
    | nil => exact absurd rfl he.ne_nil
    | cons k v => exact he.isInner k (List.mem_cons_self ..)

theorem DerivesStatement.ne_eof {v : List Token.Kind} {s : Statement} {d : Nat}
    (h : DerivesStatement v s d) : ∀ k ∈ v, k ≠ .eof := by
  have hinner {w : List Token.Kind} {e : Expr} (he : Derives .expression w e d) :
      ∀ k ∈ w, k ≠ .eof := by
    rintro k hk rfl
    exact he.isInner .eof hk
  cases h with
  | assign he =>
    exact List.forall_mem_cons.mpr ⟨by nofun, List.forall_mem_cons.mpr ⟨by nofun, hinner he⟩⟩
  | expr he => exact hinner he

theorem DerivesProgram.ne_eof {w : List Token.Kind} {program : Program} {d : Nat}
    (h : DerivesProgram w program d) : ∀ k ∈ w, k ≠ .eof := by
  induction h with
  | empty => simp
  | blank _ ih => exact List.forall_mem_cons.mpr ⟨by nofun, ih⟩
  | line hv _ ih =>
    refine List.forall_mem_append.mpr ⟨hv.ne_eof, ?_⟩
    exact List.forall_mem_cons.mpr ⟨by nofun, ih⟩
  | last hv => exact hv.ne_eof

end Grammar
end LineCalc
