import Lox.Proofs.Dispatch.Heritage
import Lox.Proofs.Dispatch.Super

namespace Lox

namespace Class

variable {type outer : Class}

theorem lineage_eq : ∀ type : Class,
    type.lineage = type :: (type.superclass?.elim [] lineage)
  | mk _ _ none _ => rfl
  | mk _ _ (some _) _ => rfl

theorem mem_lineage_iff {each : Class} :
    each ∈ type.lineage ↔ each = type ∨ ∃ above ∈ type.superclass?, each ∈ above.lineage := by
  rw [lineage_eq, List.mem_cons]
  cases type.superclass? <;> simp

theorem self_mem_lineage (type : Class) : type ∈ type.lineage := mem_lineage_iff.mpr (.inl rfl)

theorem lineage_subset {each : Class} : ∀ {outer : Class}, each ∈ outer.lineage →
    each.lineage ⊆ outer.lineage
  | mk _ _ none _, member => by
    rw [List.mem_singleton.mp member]
    exact List.Subset.refl _
  | mk _ _ (some _) _, member => by
    rcases List.mem_cons.mp member with rfl | inside
    · exact List.Subset.refl _
    · exact List.subset_cons_of_subset _ (lineage_subset inside)

theorem class_mem_objects {each : Class} : ∀ {type : Class}, .class each ∈ type.objects →
    each ∈ type.lineage
  | mk identity name none methods, member => by
    rcases mem_objects_iff.mp member with same | ⟨_, _, same⟩ | ⟨_, same, _⟩ <;> cases same
    exact self_mem_lineage _
  | mk identity name (some superclass) methods, member => by
    rcases mem_objects_iff.mp member with same | ⟨_, _, same⟩ | ⟨above, same, deeper⟩ <;> cases same
    · exact self_mem_lineage _
    · exact List.mem_cons_of_mem _ (class_mem_objects deeper)

end Class

theorem Store.Sound.lineage_older {s : Store} {roots : List Root} (sound : s.Sound roots) :
    ∀ {type : Class}, .class type ∈ s.objects roots →
      type.lineage.Pairwise fun lower upper => upper.identity < lower.identity
  | .mk _ _ none _, _ => List.pairwise_singleton _ _
  | .mk identity name (some superclass) methods, occurs => by
    have above : .class superclass ∈ Object.lasting s (.class (.mk identity name (some superclass) methods)) :=
      List.mem_append_left _ List.mem_cons_self
    have inside : .class superclass ∈ s.objects roots :=
      Store.parts_occur occurs (Class.mem_objects_iff.mpr (.inr (.inr ⟨superclass, rfl,
        superclass.mem_objects⟩)))
    have older : superclass.identity < identity := sound.aged _ occurs _ above
    have higher := sound.lineage_older inside
    refine .cons (fun upper member => ?_) higher
    -- Whatever is further up is older than the superclass.
    rw [superclass.lineage_eq] at higher member
    rcases List.mem_cons.mp member with rfl | up
    · exact older
    · exact Nat.lt_trans ((List.pairwise_cons.mp higher).1 upper up) older

namespace Class

variable {type : Class} {name : String}

theorem Formed.lookup (formed : type.Formed) (name : String) :
    (type.methods.lookup name).map (·.declaration) =
      type.declared.findRev? (·.name.lexeme == name) := by
  obtain ⟨identity, own, superclass?, methods⟩ := type
  show (methods.lookup name).map _ = (methods.map _).reverse.findRev? _
  rw [List.findRev?_eq_find?_reverse, List.reverse_reverse]
  induction methods with
  | nil => rfl
  | cons entry rest ih =>
    obtain ⟨first, others⟩ := List.forall_mem_cons.mp formed
    have key : (name == entry.1) = (entry.2.declaration.name.lexeme == name) := by
      rw [first.1, BEq.comm]
      rfl
    rw [List.map_cons, List.find?_cons, List.lookup_cons, key]
    cases entry.2.declaration.name.lexeme == name with
    | true => rfl
    | false => exact ih others

/-- A class that the program has made: its declaration has been carried out at some point. -/
structure Made (config : Config) (turns : List Turn) (type : Class) : Prop where
  declares : ∃ turn ∈ turns, ∃ (p : Point) (name : Token) (superclass? : Option Expr),
    turn.Passes config p ∧ p.task = .statement (.classDecl name superclass? type.declared) ∧
      type.name = name.lexeme ∧ (type.superclass? = none ↔ superclass? = none)
  formed : type.Formed

theorem findMethod?_declared (formed : ∀ each ∈ type.lineage, each.Formed) (name : String) :
    (type.findMethod? name).map (·.declaration) =
      type.lineage.findSome? fun each => each.declared.findRev? (·.name.lexeme == name) := by
  rw [findMethod?_eq, List.map_findSome?]
  generalize type.lineage = classes at formed
  induction classes with
  | nil => rfl
  | cons each rest ih =>
    obtain ⟨first, others⟩ := List.forall_mem_cons.mp formed
    rw [List.findSome?_cons, List.findSome?_cons, ih others, Function.comp_apply, first.lookup]

theorem findMethod?_named (formed : ∀ each ∈ type.lineage, each.Formed) {method : Closure}
    (found : type.findMethod? name = some method) :
    method.name = name ∧ method.isInitializer = (name == initializerName) := by
  rw [findMethod?_eq] at found
  obtain ⟨each, member, listed⟩ := List.exists_of_findSome?_eq_some found
  obtain ⟨same, initializes⟩ := formed each member (name, method) (mem_of_lookup listed)
  exact ⟨same.symm, initializes⟩

end Class

def Heritage.made (config : Config) (turns : List Turn) : Heritage config where
  ok p := ∃ turn ∈ turns, turn.Passes config p
  good type := ∀ each ∈ type.lineage, each.Made config turns
  calls := Visibility.passes_next
  declared := by
    rintro p name superclass? methods type ⟨turn, member, passes⟩ task follows same above each inside
    rcases Class.mem_lineage_iff.mp inside with rfl | ⟨superclass, here, further⟩
    · exact ⟨⟨turn, member, p, name, superclass?, passes, follows.declared.symm ▸ task, follows.named,
        same⟩, follows.formed⟩
    · exact above superclass here each further

inductive Turn.State (config : Config) (turn : Turn) : Store → List Root → Prop where
  | before : State config turn turn.machine.store turn.held
  | point {p : Point} (passes : turn.Passes config p) :
      State config turn p.machine.store (p.task.inputs ++ p.held)

theorem Value.made_of_within {config : Config} {turns : List Turn} {v : Value} {type : Class}
    (within : v.Within (Heritage.made config turns).good) (inside : .class type ∈ v.objects) :
    ∀ each ∈ type.lineage, each.Made config turns := by
  have whole (outer : Class) (known : ∀ each ∈ outer.lineage, each.Made config turns)
      (part : .class type ∈ outer.objects) : ∀ each ∈ type.lineage, each.Made config turns :=
    fun each member => known each (Class.lineage_subset (Class.class_mem_objects part) member)
  cases v with
  | «class» outer => exact whole outer within inside
  | «instance» id outer =>
    rcases List.mem_cons.mp inside with same | part
    · cases same
    · exact whole outer within part
  | closure _ | nil | bool _ | number _ | string _ | native _ => simp [Value.objects] at inside

namespace Session

variable {config : Config} {turns : List Turn} {turn : Turn} {held : List Root} {s : Store}
  {roots : List Root} {type : Class}
  (past : Past config turns turn.machine held) (fewer : turn.held ⊆ held)
include past fewer

theorem state_within (H : Heritage config)
    (ok : ∀ each ∈ turn :: turns, ∀ p, each.Starts config p → H.ok p)
    (state : turn.State config s roots) : s.Within H.good ∧ ∀ root ∈ roots, root.Within H.good := by
  cases state with
  | before =>
    obtain ⟨store, kept⟩ := H.of_past past fun each old => ok each (List.mem_cons_of_mem _ old)
    exact ⟨store, fun root member => kept root (fewer member)⟩
  | point passes =>
    have within := H.of_passes past fewer ok passes
    exact ⟨within.store, List.forall_mem_append.mpr ⟨within.inputs, within.held⟩⟩

theorem made_of_state (state : turn.State config s roots) (occurs : .class type ∈ s.objects roots) :
    ∀ each ∈ type.lineage, each.Made config (turn :: turns) := by
  obtain ⟨store, kept⟩ := state_within past fewer (.made config (turn :: turns))
    (fun each member p starts => ⟨each, member, p, starts, .refl⟩) state
  rcases Store.mem_objects_iff.mp occurs with ⟨id, scope, found, same | inside⟩ |
    ⟨id, fields, found, inside⟩ | ⟨root, member, inside⟩
  · cases same
  · obtain ⟨entry, listed, part⟩ := Bindings.mem_objects_iff.mp inside
    exact Value.made_of_within (store entry.2 (.inl ⟨id, scope, entry.1, found, listed⟩)) part
  · obtain ⟨entry, listed, part⟩ := Bindings.mem_objects_iff.mp inside
    exact Value.made_of_within (store entry.2 (.inr (.inl ⟨id, fields, entry.1, found, listed⟩))) part
  · cases root with
    | scope id => cases inside
    | value v => exact Value.made_of_within (kept _ member) inside

theorem safe_of_state (sources : ∀ each ∈ turn :: turns, ∃ request : Request, request.work = .ok each.work)
    (state : turn.State config s roots) : (Discipline.written config).Safe s roots := by
  have fits := Grammatical.fits_of_sources config sources
  have only (m : Machine) (roots : List Root) : roots ⊆ m.roots roots :=
    fun _ member => List.mem_cons_of_mem _ (List.mem_cons_of_mem _ member)
  cases state with
  | before =>
    have rested := Discipline.rested_of_past rfl past fun each old => fits each (List.mem_cons_of_mem _ old)
    exact (rested.weaken fewer).safe.weaken (only _ _)
  | point passes =>
    obtain ⟨layers, after, ready⟩ := Discipline.ready_of_passes rfl past fewer fits passes
    exact ready.safe.weaken (only _ _)

end Session
end Lox
