import Lox.Machine.Basic
import Lox.Proofs.Machine.Safety
import Lox.Proofs.Store.Collection

namespace Lox

namespace Store

variable {s : Store} {l : Ledger} {roots : List Root} (sound : s.Sound roots)
include sound

def Stays (s : Store) (l : Ledger) (roots : List Root) (key : Nat) : Prop :=
  key ∈ s.kept .given (fun _ => false) l roots

theorem Sound.scope?_of_stays {id : ScopeId} (stays : s.Stays l roots id.index) :
    (collect s l roots).1.scope? id = s.scope? id :=
  (sound.scope?_collect (by simp) id).trans (if_pos stays)

theorem Sound.stays_of_scope? {id : ScopeId} {scope : Scope}
    (found : (collect s l roots).1.scope? id = some scope) :
    s.Stays l roots id.index ∧ s.scope? id = some scope := by
  have before := (sound.scope?_collect (by simp) id).symm.trans found
  split at before
  · rename_i here
    exact ⟨here, before⟩
  · cases before

theorem Sound.fields?_of_collect {id : InstanceId} {fields : Bindings}
    (found : (collect s l roots).1.fields? id = some fields) : s.fields? id = some fields := by
  have before := (sound.fields?_collect (by simp) id).symm.trans found
  split at before
  · exact before
  · cases before

theorem Sound.stays_of_root {id : ScopeId} (member : .scope id ∈ roots) (stands : s.Stands id) :
    s.Stays l roots id.index :=
  sound.root_kept (by simp) member rfl stands.occurs

theorem Sound.stays_outward {id parent : ScopeId} {scope : Scope}
    (stays : s.Stays l roots id.index) (found : s.scope? id = some scope)
    (around : scope.enclosing? = some parent) (exists' : ∃ outer, s.scope? parent = some outer) :
    s.Stays l roots parent.index := by
  have edge : .scope parent ∈ (Object.scope id).lasting s := by
    refine List.mem_map.mpr ⟨parent, ?_, rfl⟩
    rw [found]
    exact Option.mem_toList.mpr around
  exact sound.kept_closed (by simp) (scope_mem_objects_iff.mpr ⟨scope, found⟩) stays
    (scope_mem_objects_iff.mpr exists') (.inl edge)

theorem Sound.stands_collect {id : ScopeId} (stands : s.Stands id)
    (stays : s.Stays l roots id.index) : (collect s l roots).1.Stands id := by
  induction stands with
  | @intro id scope found around ih =>
    refine .intro ((sound.scope?_of_stays stays).trans found) fun parent outside => ?_
    obtain ⟨outer, atParent, _⟩ := (around parent outside).exists
    exact ih parent outside (sound.stays_outward stays found outside ⟨outer, atParent⟩)

theorem Sound.captured_collect {id : ScopeId} (captured : s.Captured id)
    (stays : s.Stays l roots id.index) : (collect s l roots).1.Captured id := by
  obtain ⟨scope, found, marked⟩ := captured
  exact ⟨scope, (sound.scope?_of_stays stays).trans found, marked⟩

theorem Sound.chain_collect {Layer : Type} {holds : Layer → ScopeId → (String → Prop) → Prop}
    {globals id : ScopeId} {layers : List Layer} (chain : Chain holds s globals id layers)
    (stands : s.Stands id) (stays : s.Stays l roots id.index) :
    Chain holds (collect s l roots).1 globals id layers := by
  induction chain with
  | globals => exact .globals
  | inner found around known _ ih =>
    obtain ⟨scope, atId, outer⟩ := stands.exists
    rw [found] at atId
    cases atId
    have standing := outer _ around
    obtain ⟨parent, atParent, _⟩ := standing.exists
    exact .inner ((sound.scope?_of_stays stays).trans found) around known
      (ih standing (sound.stays_outward stays found around ⟨parent, atParent⟩))

theorem Sound.stays_of_closure {function : Closure}
    (occurs : .closure function ∈ (collect s l roots).1.objects roots)
    (captured : s.Captured function.scope) : s.Stays l roots function.scope.index := by
  obtain ⟨before, here⟩ := (sound.occurs_collect_iff (by simp)).mp occurs
  obtain ⟨scope, found, _⟩ := captured
  exact sound.kept_closed (by simp) before here (scope_mem_objects_iff.mpr ⟨scope, found⟩)
    (.inl (List.mem_singleton_self (Object.scope function.scope)))

omit sound

theorem since_collect (sound : s.Sound roots) (changing : ScopeId → Prop) :
    s.Since (collect s l roots).1 changing := by
  refine ⟨Nat.le_refl _, fun id after _ found => ?_⟩
  exact ⟨after, (sound.stays_of_scope? found).2, .refl after, fun _ bound => .inl bound⟩

end Store

namespace DisciplineData

variable {config : Config} {D : Discipline config} {s : Store} {l : Ledger} {roots : List Root}

theorem Safe.collected (safe : D.Safe s roots) : D.Safe (collect s l roots).1 roots := by
  have sound := safe.sound
  have after : (collect s l roots).1.Sound roots := sound.collected (by simp)
  refine ⟨after, ?_, ?_, ?_⟩
  · intro id scope parent found marked around
    obtain ⟨stays, before⟩ := sound.stays_of_scope? found
    obtain ⟨outer, atParent, caught⟩ := safe.closed id scope parent before marked around
    exact sound.captured_collect ⟨outer, atParent, caught⟩
      (sound.stays_outward stays before around ⟨outer, atParent⟩)
  · intro id member
    have stands := safe.stands id member
    exact sound.stands_collect stands (sound.stays_of_root member stands)
  · intro v carries
    have before : s.Carries roots v := by
      rcases carries with ⟨id, scope, name, found, member⟩ | ⟨id, fields, name, found, member⟩ | held
      · exact .inl ⟨id, scope, name, (sound.stays_of_scope? found).2, member⟩
      · exact .inr (.inl ⟨id, fields, name, sound.fields?_of_collect found, member⟩)
      · exact .inr (.inr held)
    have closed : ∀ {fits : Closure → List D.Layer → Prop} {function : Closure},
        .closure function ∈ (collect s l roots).1.objects roots → D.Closed fits s function →
        D.Closed fits (collect s l roots).1 function := by
      rintro fits function occurs ⟨captured, layers, chain, fit⟩
      have stays := sound.stays_of_closure occurs captured
      exact ⟨sound.captured_collect captured stays, layers,
        sound.chain_collect chain (safe.closed.stands sound.nested captured) stays, fit⟩
    have admits := safe.admits v before
    have occur := carries.occurs
    cases v with
    | closure function => exact closed (occur _ (List.mem_singleton_self _)) admits
    | «class» type => exact fun method member => closed (occur _ member) (admits method member)
    | «instance» id type =>
      exact fun method member =>
        closed (occur _ (List.mem_cons_of_mem _ member)) (admits method member)
    | nil | bool _ | number _ | string _ | native _ => trivial

end DisciplineData
end Lox
