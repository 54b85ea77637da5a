import EventQuery.Proofs.Criterion.ParsedForm

/-!
# Precedence

A conjunction in a disjunction needs no parentheses: `&&` binds tighter than `||`. In the sparse
form of a criterion parentheses stand only where this does not settle what belongs together, and the
sparse form is read back as the written form is. So the grammar gives every chain of operators, at
any depth, to the connective that binds tighter, and keeps the operands in their order.
-/

namespace EventQuery.Criterion

/-- The text of an operand of a join by `c`: as in the written form, but without parentheses if it
is a conjunction in a disjunction. -/
def guardUnder (c : Connective) (a : Criterion) (s : List Char) : List Char :=
  match c, a with
  | .or, join .and _ => s
  | _, _ => a.enclose s

mutual

/-- The written form with the parentheses it needs. -/
def sparse : Criterion → List Char
  | empty => []
  | leaf l => l.spelling
  | join c cs => sparseOperands c cs

/-- Operands with the connective between them. -/
def sparseOperands (c : Connective) : List Criterion → List Char
  | [] => []
  | [a] => a.guardUnder c a.sparse
  | a :: as => a.guardUnder c a.sparse ++ ' ' :: (c.token.toList ++ ' ' :: sparseOperands c as)

end

def sparseText (a : Criterion) : String := String.ofList a.sparse

open Grammar

theorem sparse_join_cons (c : Connective) (a : Criterion) (as : List Criterion) :
    (join c (a :: as)).sparse =
      a.guardUnder c a.sparse ++ signed c (as.map fun b => b.guardUnder c b.sparse) := by
  show sparseOperands c (a :: as) = _
  induction as generalizing a with
  | nil => simp [sparseOperands, signed]
  | cons b as ih =>
      rw [sparseOperands, ih]
      · simp [signed, Connective.sign]
      · exact List.cons_ne_nil _ _

/-- Operands that are read up to the marks of a join are joined in its sparse form. -/
theorem exists_reads_sparse_join {c : Connective} {m : Matcher Criterion} {marks : List Char}
    (hc : c.mark ∉ marks) {a : Criterion} {as : List Criterion}
    (h : ∀ x ∈ a :: as, ∃ b, Reads m (c.mark :: marks) (x.guardUnder c x.sparse) b ∧
      b.flatten = x.textual.flatten) :
    ∃ b, Reads (joined c m) marks (join c (a :: as)).sparse b ∧
      b.flatten = (join c (a :: as)).textual.flatten := by
  obtain ⟨b, bs, hb, hbs, hflat⟩ := exists_reads_operands (f := fun x => x.guardUnder c x.sparse) h
  refine ⟨bs.foldl (combine c) b, ?_, hflat c⟩
  rw [sparse_join_cons]
  exact reads_joined hc hb hbs

/-- The sparse form is read wherever the criterion may stand. -/
structure ReadsSparse (a : Criterion) : Prop where
  inConjunction : ∃ b, Reads (negation disjunction) operandMarks (a.guardUnder .and a.sparse) b ∧
    b.flatten = a.textual.flatten
  inDisjunction : ∃ b, Reads (conjunction disjunction) ['|', ')'] (a.guardUnder .or a.sparse) b ∧
    b.flatten = a.textual.flatten
  alone : ∃ b, Reads disjunction [')'] a.sparse b ∧ b.flatten = a.textual.flatten

theorem readsSparse_leaf {l : Leaf} (h : l.IsWritable) : (leaf l).ReadsSparse where
  inConjunction := ⟨leaf l.textual, reads_leaf h, rfl⟩
  inDisjunction := ⟨leaf l.textual, reads_single (c := .and) (by decide) (reads_leaf h), rfl⟩
  alone := ⟨leaf l.textual, reads_operand (reads_leaf h), rfl⟩

/-- A conjunction stands in a disjunction as it stands alone. -/
theorem readsSparse_and {a : Criterion} {as : List Criterion}
    (h : ∀ x ∈ a :: as, x.ReadsSparse) : (join .and (a :: as)).ReadsSparse := by
  obtain ⟨b, hb, hflat⟩ : ∃ b,
      Reads (conjunction disjunction) ['|', ')'] (join .and (a :: as)).sparse b ∧
        b.flatten = (join .and (a :: as)).textual.flatten :=
    exists_reads_sparse_join (c := .and) (by decide) fun x hx => (h x hx).inConjunction
  have halone := reads_disjunction hb
  exact ⟨⟨b, reads_group halone, hflat⟩, ⟨b, hb, hflat⟩, ⟨b, halone, hflat⟩⟩

/-- A disjunction stands in parentheses everywhere else. -/
theorem readsSparse_or {a : Criterion} {as : List Criterion}
    (h : ∀ x ∈ a :: as, x.ReadsSparse) : (join .or (a :: as)).ReadsSparse := by
  obtain ⟨b, hb, hflat⟩ : ∃ b,
      Reads disjunction [')'] (join .or (a :: as)).sparse b ∧
        b.flatten = (join .or (a :: as)).textual.flatten := by
    rw [disjunction_eq]
    exact exists_reads_sparse_join (c := .or) (by decide) fun x hx => (h x hx).inDisjunction
  have hgroup := reads_group hb
  exact ⟨⟨b, hgroup, hflat⟩, ⟨b, reads_single (c := .and) (by decide) hgroup, hflat⟩,
    ⟨b, hb, hflat⟩⟩

/-- By induction on the criterion, each statement about a join needs another one about its
operands. -/
theorem readsSparse {a : Criterion} (text : a.isHollow = false) (solid : a.IsSolid)
    (writable : ∀ l ∈ a.leaves, l.IsWritable) : a.ReadsSparse := by
  induction a with
  | empty => cases text
  | leaf l => exact readsSparse_leaf (writable l List.mem_cons_self)
  | join c cs ih =>
      have solid := isSolid_join.1 solid
      cases cs with
      | nil => cases text
      | cons a as =>
          have operands : ∀ x ∈ a :: as, x.ReadsSparse := by
            intro x hx
            exact ih x hx (solid x hx).2 (solid x hx).1 fun l hl =>
              writable l (mem_leaves_join hx hl)
          cases c with
          | and => exact readsSparse_and operands
          | or => exact readsSparse_or operands

/-- The sparse form of a criterion in parsed form is read back. -/
theorem parse_sparseText {a : Criterion} (h : a.IsParsed) :
    Criterion.parse a.sparseText = .ok a := by
  by_cases ne : a = empty
  · rw [ne]
    rfl
  · obtain ⟨b, hb, hflat⟩ :=
      (readsSparse (isHollow_of_isFlat h.flat ne) (isSolid_of_isFlat h.flat) h.writable).alone
    rw [sparseText, parse_of_reads hb, hflat, h.textual_flatten]

/-- Chains of both connectives, inside parentheses and outside. -/
theorem parse_sparseText_chains :
    let x : Leaf := .present (.single "x")
    let y : Leaf := .absent (.single "y")
    let z : Leaf := ⟨.single "z", .comparison (.order .less), some (.text "a && b")⟩
    let inner := join .or [join .and [leaf y, leaf z], leaf x]
    let a := join .or [join .and [leaf x, inner, leaf y], leaf z, join .and [leaf z, leaf x]]
    a.IsParsed ∧
      a.sparseText =
        "x && (!y && z < \"a && b\" || x) && !y || z < \"a && b\" || z < \"a && b\" && x" ∧
      Criterion.parse a.sparseText = .ok a := by
  intro x y z inner a
  have hmem : ∀ l ∈ a.leaves, l = x ∨ l = y ∨ l = z := by decide
  have parsed : a.IsParsed := by
    refine ⟨?_, fun l hl => ?_, fun l hl => ?_⟩
    · exact (congrArg IsFlat (rfl : a.flatten = a)).mp a.isFlat_flatten
    · rcases hmem l hl with rfl | rfl | rfl <;> decide
    · rcases hmem l hl with rfl | rfl | rfl
      · exact Or.inr rfl
      · exact Or.inl rfl
      · exact ⟨_, rfl⟩
  exact ⟨parsed, by decide +kernel, parse_sparseText parsed⟩

end EventQuery.Criterion
