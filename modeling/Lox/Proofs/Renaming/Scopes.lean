import Lox.Proofs.Scoping.Sight
import Lox.Proofs.Renaming.Trees

namespace Lox.Resolve

structure Spare (old new : String) (scopes : List Names) : Prop where
  differs : new ≠ old
  old_plain : old ≠ "this" ∧ old ≠ "super"
  new_plain : new ≠ "this" ∧ new ≠ "super"
  absent : ∀ names ∈ scopes, names.lookup new = none

section names

variable (old new : String)

def renamedName (here : Prop) [Decidable here] (name : String) : String :=
  if here ∧ name = old then new else name

def Names.renamed (names : Names) : Names :=
  names.map fun (name, defined) => (renamedName old new True name, defined)

/-- Scopes in which the one so far out is renamed. -/
def renamedAt (depth : Nat) (scopes : List Names) : List Names :=
  scopes.modify depth (Names.renamed old new)

theorem lexeme_renamed (here : Prop) [Decidable here] (t : Token) :
    (if here then t.renamed old new else t).lexeme = renamedName old new here t.lexeme := by
  unfold Token.renamed renamedName
  by_cases leads : here <;> by_cases same : t.lexeme = old <;> simp [leads, same]

theorem renamedName_of_not {here : Prop} [Decidable here] (elsewhere : ¬here) (name : String) :
    renamedName old new here name = name := if_neg fun both => elsewhere both.1

theorem renamedName_of {here : Prop} [Decidable here] (leads : here) (name : String) :
    renamedName old new here name = renamedName old new True name := by
  unfold renamedName
  simp [leads]

theorem renamedName_eq_or (here : Prop) [Decidable here] (name : String) :
    renamedName old new here name = name ∨ renamedName old new here name = new := by
  unfold renamedName
  split
  · exact .inr rfl
  · exact .inl rfl

theorem renamedName_of_ne (here : Prop) [Decidable here] {name : String} (other : name ≠ old) :
    renamedName old new here name = name := if_neg fun both => other both.2

end names

variable {old new : String} {names : Names} {scopes : List Names} {depth : Nat} {name : String}

theorem renamedName_inj {other : String} (first : name ≠ new) (second : other ≠ new) :
    renamedName old new True name = renamedName old new True other ↔ name = other := by
  unfold renamedName
  constructor
  · split <;> split <;> simp_all [eq_comm]
  · rintro rfl
    rfl

theorem lookup_renamed (old : String) (absent : names.lookup new = none) (other : name ≠ new) :
    (names.renamed old new).lookup (renamedName old new True name) = names.lookup name := by
  induction names with
  | nil => rfl
  | cons entry rest ih =>
    obtain ⟨key, defined⟩ := entry
    rw [lookup_entry] at absent ⊢
    have known : key ≠ new := by
      rintro rfl
      simp at absent
    rw [if_neg (Ne.symm known)] at absent
    show ((renamedName old new True key, defined) :: Names.renamed old new rest).lookup _ = _
    rw [lookup_entry, ih absent]
    simp only [renamedName_inj other known]

theorem lookup_renamed_old (differs : new ≠ old) : (names.renamed old new).lookup old = none := by
  induction names with
  | nil => rfl
  | cons entry rest ih =>
    obtain ⟨key, defined⟩ := entry
    show ((renamedName old new True key, defined) :: Names.renamed old new rest).lookup _ = _
    rw [lookup_entry, ih, if_neg]
    unfold renamedName
    split
    · exact differs.symm
    · rename_i other
      exact fun same => other ⟨trivial, same.symm⟩

/-- A scope that is renamed gets to know no other name. -/
theorem lookup_renamed_none (differs : new ≠ old) (absent : names.lookup new = none)
    (other : name ≠ new) (unknown : names.lookup name = none) :
    (names.renamed old new).lookup name = none := by
  by_cases same : name = old
  · rw [same]
    exact lookup_renamed_old differs
  · rw [← lookup_renamed old absent other, renamedName_of_ne old new True same] at unknown
    exact unknown

theorem distance?_known {value : Bool} (known : names.lookup name = some value) :
    distance? (names :: scopes) name = some 0 := by
  rw [distance?_cons, if_pos (by simp [Names.declares, known])]

theorem distance?_unknown (unknown : names.lookup name = none) :
    distance? (names :: scopes) name = (distance? scopes name).map (· + 1) := by
  rw [distance?_cons, if_neg (by simp [Names.declares, unknown])]

namespace Spare

theorem head (spare : Spare old new (names :: scopes)) : names.lookup new = none :=
  spare.absent names List.mem_cons_self

theorem tail (spare : Spare old new (names :: scopes)) : Spare old new scopes :=
  ⟨spare.differs, spare.old_plain, spare.new_plain,
    fun names member => spare.absent names (List.mem_cons_of_mem _ member)⟩

theorem cons (spare : Spare old new scopes) (absent : names.lookup new = none) :
    Spare old new (names :: scopes) :=
  ⟨spare.differs, spare.old_plain, spare.new_plain,
    List.forall_mem_cons.mpr ⟨absent, spare.absent⟩⟩

theorem unknown (spare : Spare old new (names :: scopes)) (here : Prop) [Decidable here]
    (absent : names.lookup name = none) :
    names.lookup (renamedName old new here name) = none := by
  rcases renamedName_eq_or old new here name with same | same <;> rw [same]
  · exact absent
  · exact spare.head

/-- A use leads as far out as before, under the new name if it leads to the renamed scope. -/
theorem distance?_renamed (spare : Spare old new scopes) (depth : Nat) (other : name ≠ new) :
    distance? (renamedAt old new depth scopes)
      (renamedName old new (distance? scopes name = some depth) name) = distance? scopes name := by
  -- `depth` counts the scopes up to the one that has the variable.
  induction scopes generalizing depth with
  | nil => cases depth <;> rfl
  | cons names scopes ih =>
    cases known : names.lookup name with
    | some value =>
      rw [distance?_known known]
      cases depth with
      | zero =>
        have same := (lookup_renamed old spare.head other).trans known
        rw [renamedName_of old new rfl]
        exact distance?_known same
      | succ depth =>
        rw [renamedName_of_not old new (by simp)]
        exact distance?_known known
    | none =>
      rw [distance?_unknown known]
      cases depth with
      | zero =>
        have same := lookup_renamed_none spare.differs spare.head other known
        rw [renamedName_of_not old new (by simp)]
        exact distance?_unknown same
      | succ depth =>
        have leads : renamedName old new ((distance? scopes name).map (· + 1) = some (depth + 1))
            name = renamedName old new (distance? scopes name = some depth) name := by
          unfold renamedName
          simp
        have absent := spare.unknown (distance? scopes name = some depth) known
        rw [leads]
        exact (distance?_unknown absent).trans (congrArg _ (ih spare.tail depth))

theorem ready_renamed (spare : Spare old new scopes) (depth : Nat) (other : name ≠ new)
    (ready : ∀ names ∈ scopes.head?, names.lookup name ≠ some false) :
    ∀ names ∈ (renamedAt old new depth scopes).head?,
      names.lookup (renamedName old new (distance? scopes name = some depth) name) ≠
        some false := by
  cases scopes with
  | nil => cases depth <;> exact nofun
  | cons names scopes =>
    replace ready := ready names rfl
    cases known : names.lookup name with
    | some value =>
      rw [distance?_known known]
      cases depth with
      | zero =>
        rintro _ ⟨⟩
        rw [renamedName_of old new rfl, lookup_renamed old spare.head other]
        exact ready
      | succ depth =>
        rintro _ ⟨⟩
        rw [renamedName_of_not old new (by simp)]
        exact ready
    | none =>
      rw [distance?_unknown known]
      cases depth with
      | zero =>
        rintro _ ⟨⟩
        rw [renamedName_of_not old new (by simp),
          lookup_renamed_none spare.differs spare.head other known]
        exact nofun
      | succ depth =>
        rintro _ ⟨⟩
        rw [spare.unknown _ known]
        exact nofun

end Spare

section declare

variable {t : Token}

theorem declare_unknown (unknown : names.lookup t.lexeme = none) :
    declare (names :: scopes) t = (((t.lexeme, false) :: names) :: scopes, []) := by
  rw [declare, if_neg (by simp [Names.declares, unknown])]

theorem unknown_of_declare (accepted : (declare (names :: scopes) t).2 = []) :
    names.lookup t.lexeme = none := by
  cases known : names.lookup t.lexeme with
  | none => rfl
  | some value =>
    rw [declare, if_pos (by simp [Names.declares, known])] at accepted
    cases accepted

theorem declare_renamed (spare : Spare old new scopes) (depth : Nat) (other : t.lexeme ≠ new)
    (accepted : (declare scopes t).2 = []) :
    declare (renamedAt old new depth scopes) (if depth = 0 then t.renamed old new else t) =
      (renamedAt old new depth (declare scopes t).1, []) := by
  cases scopes with
  | nil => cases depth <;> rfl
  | cons names scopes =>
    have unknown := unknown_of_declare accepted
    rw [declare_unknown unknown]
    cases depth with
    | zero =>
      have lexeme : (t.renamed old new).lexeme = renamedName old new True t.lexeme :=
        lexeme_renamed old new True t
      have same := (lookup_renamed old spare.head other).trans unknown
      rw [← lexeme] at same
      refine (declare_unknown same).trans ?_
      rw [lexeme]
      rfl
    | succ depth => exact declare_unknown unknown

theorem define_renamed (old new : String) (depth : Nat) (scopes : List Names) (t : Token) :
    define (renamedAt old new depth scopes) (if depth = 0 then t.renamed old new else t) =
      renamedAt old new depth (define scopes t) := by
  cases scopes with
  | nil => cases depth <;> rfl
  | cons names scopes =>
    cases depth with
    | zero =>
      have lexeme : (t.renamed old new).lexeme = renamedName old new True t.lexeme :=
        lexeme_renamed old new True t
      show (((t.renamed old new).lexeme, true) :: names.renamed old new) :: scopes = _
      rw [lexeme]
      rfl
    | succ depth => rfl

theorem introduce_renamed (spare : Spare old new scopes) (depth : Nat) (other : t.lexeme ≠ new)
    (accepted : (introduce scopes t).2 = []) :
    introduce (renamedAt old new depth scopes) (if depth = 0 then t.renamed old new else t) =
      (renamedAt old new depth (introduce scopes t).1, []) := by
  unfold introduce
  rw [declare_renamed spare depth other accepted]
  exact congrArg (·, []) (define_renamed old new depth (declare scopes t).1 t)

theorem introduce_other (spare : Spare old new scopes) {depth : Nat} (other : t.lexeme ≠ new)
    (others : depth = 0 → t.lexeme ≠ old) (accepted : (introduce scopes t).2 = []) :
    introduce (renamedAt old new depth scopes) t =
      (renamedAt old new depth (introduce scopes t).1, []) := by
  have same : (if depth = 0 then t.renamed old new else t) = t := by
    split
    · rename_i here
      exact if_neg (others here)
    · rfl
  have renamed := introduce_renamed spare depth other accepted
  rwa [same] at renamed

theorem Spare.declare (spare : Spare old new scopes) (other : t.lexeme ≠ new) :
    Spare old new (Resolve.declare scopes t).1 := by
  cases scopes with
  | nil => exact spare
  | cons names scopes =>
    obtain ⟨names', same, others, _⟩ := declare_cons names scopes t
    rw [same]
    exact spare.tail.cons ((others new other.symm).trans spare.head)

theorem Spare.introduce (spare : Spare old new scopes) (other : t.lexeme ≠ new) :
    Spare old new (Resolve.introduce scopes t).1 := by
  cases scopes with
  | nil => exact spare
  | cons names scopes =>
    obtain ⟨names', same, _, others⟩ := introduce_cons names scopes t
    rw [same]
    exact spare.tail.cons ((others new other.symm).trans spare.head)

theorem Spare.introduceAll {params : List Token} (spare : Spare old new scopes)
    (other : ∀ param ∈ params, param.lexeme ≠ new) :
    Spare old new (Resolve.introduceAll scopes params).1 := by
  induction params generalizing scopes with
  | nil => exact spare
  | cons param rest ih =>
    obtain ⟨first, later⟩ := List.forall_mem_cons.mp other
    exact ih (spare.introduce first) later

theorem Spare.classScopes (spare : Spare old new scopes) (hasSuperclass : Bool) :
    Spare old new (Resolve.classScopes scopes hasSuperclass) := by
  have unknown (word : String) (other : new ≠ word) : [(word, true)].lookup new = none := by
    rw [lookup_entry, if_neg other]
    rfl
  have this := unknown "this" spare.new_plain.1
  cases hasSuperclass with
  | false => exact spare.cons this
  | true => exact (spare.cons (unknown "super" spare.new_plain.2)).cons this

theorem introduceAll_renamed {params : List Token} (spare : Spare old new scopes) (depth : Nat)
    (other : ∀ param ∈ params, param.lexeme ≠ new)
    (accepted : (introduceAll scopes params).2 = []) :
    introduceAll (renamedAt old new depth scopes)
        (params.map fun t => if depth = 0 then t.renamed old new else t) =
      (renamedAt old new depth (introduceAll scopes params).1, []) := by
  induction params generalizing scopes with
  | nil => rfl
  | cons param rest ih =>
    obtain ⟨first, later⟩ := List.forall_mem_cons.mp other
    obtain ⟨one, others⟩ := List.append_eq_nil_iff.mp accepted
    rw [List.map_cons, introduceAll, introduce_renamed spare depth first one]
    dsimp only
    rw [ih (spare.introduce first) later others]
    rfl

theorem classScopes_renamed (old new : String) (depth : Nat) (scopes : List Names)
    (hasSuperclass : Bool) : classScopes (renamedAt old new depth scopes) hasSuperclass =
      renamedAt old new (depth + if hasSuperclass then 2 else 1)
        (classScopes scopes hasSuperclass) := by
  cases hasSuperclass <;> rfl

end declare

end Lox.Resolve
