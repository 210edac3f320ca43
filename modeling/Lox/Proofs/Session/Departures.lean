import Mathlib.Logic.Relation
import Lox.Proofs.Machine.Presence
import Lox.Proofs.Session.Grammatical

namespace Lox

open Relation

namespace Store

variable {s : Store} {roots : List Root}

/-- A scope leads outward to all that surround it. -/
theorem path_of_surrounds {outer id : ScopeId} (around : s.surrounds outer id = true) :
    ReflTransGen s.Refers (.scope id) (.scope outer) := by
  induction index : id.index using Nat.strongRecOn generalizing id with
  | _ _ ih =>
    rw [surrounds, Bool.or_eq_true] at around
    rcases around with same | further
    · cases eq_of_beq same
      exact .refl
    · split at further
      · rename_i parent older outward
        obtain ⟨scope, found, outside⟩ := outward?_eq_some outward
        refine .head (.inl ?_) (ih parent.index (index ▸ older) further rfl)
        refine List.mem_map.mpr ⟨parent, ?_, rfl⟩
        rw [found]
        exact Option.mem_toList.mpr outside
      · cases further

theorem ring_of_isRinged {id : ScopeId} (ringed : s.isRinged id = true) :
    ∃ scope, s.scope? id = some scope ∧ ∃ object ∈ scope.bindings.bound,
      ReflTransGen s.Refers object (.scope id) := by
  obtain ⟨scope, found, bound⟩ := Option.any_eq_true _ _ |>.mp ringed
  obtain ⟨object, member, captures⟩ := List.any_eq_true.mp bound
  refine ⟨scope, found, object, member, ?_⟩
  have closes (function : Closure) : s.Refers (.closure function) (.scope function.scope) :=
    .inl (List.mem_singleton_self (Object.scope function.scope))
  cases object with
  | closure function => exact .head (closes function) (path_of_surrounds captures)
  | «class» type =>
    obtain ⟨entry, declared, around⟩ := List.any_eq_true.mp captures
    have method : s.Refers (.class type) (.closure entry.2) :=
      .inl (List.mem_append_right _ (List.mem_map_of_mem declared))
    exact .head method (.head (closes entry.2) (path_of_surrounds around))
  | scope _ | «instance» _ _ => cases captures

theorem refers_scope {holder : Object} {id : ScopeId} (refers : s.Refers holder (.scope id)) :
    (∃ function, holder = .closure function ∧ function.scope = id) ∨
      ∃ inner scope, holder = .scope inner ∧ s.scope? inner = some scope ∧
        scope.enclosing? = some id := by
  rcases refers with lasting | loose
  · cases holder with
    | scope inner =>
      obtain ⟨outer, around, same⟩ := List.mem_map.mp lasting
      cases same
      obtain ⟨scope, found, outside⟩ := Option.bind_eq_some_iff.mp (Option.mem_toList.mp around)
      exact .inr ⟨inner, scope, rfl, found, outside⟩
    | closure function =>
      cases List.mem_singleton.mp lasting
      exact .inl ⟨function, rfl, rfl⟩
    | «class» type => simp [Object.lasting] at lasting
    | «instance» _ type => cases List.mem_singleton.mp lasting
  · have bound (bindings : Bindings) : .scope id ∉ bindings.bound := fun inside =>
      bindings.scope_not_mem id (Bindings.bound_subset inside)
    cases holder with
    | scope inner => exact absurd loose (bound _)
    | «instance» _ _ => exact absurd loose (bound _)
    | closure _ | «class» _ => cases loose

/-- What occurs and is no scope is part of a value that is carried. -/
theorem carries_of_occurs {object : Object} (occurs : object ∈ s.objects roots)
    (noScope : ∀ id, object ≠ .scope id) : ∃ v, s.Carries roots v ∧ object ∈ v.objects := by
  rcases mem_objects_iff.mp occurs with ⟨id, scope, found, same | inside⟩ | ⟨id, fields, found, inside⟩ |
    ⟨root, member, inside⟩
  · exact absurd same (noScope id)
  · obtain ⟨⟨name, v⟩, bound, part⟩ := Bindings.mem_objects_iff.mp inside
    exact ⟨v, .inl ⟨id, scope, name, found, bound⟩, part⟩
  · obtain ⟨⟨name, v⟩, bound, part⟩ := Bindings.mem_objects_iff.mp inside
    exact ⟨v, .inr (.inl ⟨id, fields, name, found, bound⟩), part⟩
  · cases root with
    | scope id => cases inside
    | value v => exact ⟨v, .inr (.inr member), inside⟩

end Store

namespace DisciplineData

variable {config : Config} {D : Discipline config} {s : Store} {roots : List Root}

theorem Admits.captured {v : Value} {function : Closure} (admits : D.Admits s v)
    (part : .closure function ∈ v.objects) : s.Captured function.scope := by
  cases v with
  | closure other =>
    cases List.mem_singleton.mp part
    exact admits.1
  | «class» type => exact (admits function part).1
  | «instance» id type =>
    rcases List.mem_cons.mp part with same | inside
    · cases same
    · exact (admits function inside).1
  | nil | bool _ | number _ | string _ | native _ => cases part

/-- What a ring of references leads to exists, whatever else may refer to it. -/
theorem Safe.exists_of_ring (safe : D.Safe s roots) {id : ScopeId} {scope : Scope}
    (found : s.scope? id = some scope) {object : Object} (bound : object ∈ scope.bindings.bound)
    (ring : ReflTransGen s.Refers object (.scope id)) {other : Object}
    (leads : ReflTransGen s.Refers (.scope id) other) : s.Exists roots other := by
  have binds : s.Refers (.scope id) object := by
    refine .inr ?_
    rw [Object.loose, found]
    exact bound
  have along {first last : Object} (sturdy : s.Sturdy first)
      (path : ReflTransGen s.Refers first last) : s.Sturdy last := by
    induction path with
    | refl => exact sturdy
    | tail _ refers ih => exact safe.sturdy_of_refers ih refers
  have start : s.Sturdy object :=
    safe.sturdy_of_bound (fun entry member => .inl ⟨id, scope, entry.1, found, member⟩) bound
  refine ⟨ReflTransGen s.Refers (.scope id), leads, fun each path => ⟨?_, .inr ?_⟩⟩
  · induction path with
    | refl => exact Store.scope_mem_objects_iff.mpr ⟨scope, found⟩
    | tail before refers ih =>
      exact occurs_of_refers (along (along start ring) (.tail before refers)) ih refers
  · cases path with
    | refl => exact TransGen.tail'_iff.mp (.head' binds ring)
    | tail before refers => exact ⟨_, before, refers⟩

theorem Safe.isReferred_iff (safe : D.Safe s roots) {id : ScopeId}
    (occurs : .scope id ∈ s.objects roots) :
    s.isReferred roots id = true ↔ s.Exists roots (.scope id) := by
  rw [Store.isReferred, Bool.or_eq_true, ← Std.TreeMap.mem_iff_contains]
  constructor
  · rintro (quick | present)
    · obtain ⟨key, -, both⟩ := List.any_eq_true.mp quick
      obtain ⟨ringed, around⟩ := Bool.and_eq_true_iff.mp both
      obtain ⟨scope, found, object, bound, ring⟩ := Store.ring_of_isRinged ringed
      exact safe.exists_of_ring found bound ring (Store.path_of_surrounds around)
    · exact (safe.sound.exists_iff .given).mpr ⟨occurs, present⟩
  · exact fun existing => .inr ((safe.sound.exists_iff .given).mp existing).2

/-- A scope that still exists, while only older ones are held, has been captured. -/
theorem Safe.captured_of_exists (safe : D.Safe s roots) {id : ScopeId}
    (older : ∀ other, .scope other ∈ roots → other.index < id.index)
    (existing : s.Exists roots (.scope id)) : s.Captured id := by
  obtain ⟨alive, here, supported⟩ := existing
  by_contra uncaptured
  -- No function keeps the scope, so a scope inside it does, which is not captured either; their
  -- numbers grow, and no number reaches `s.next`.
  induction younger : s.next - id.index using Nat.strongRecOn generalizing id with
  | _ _ ih =>
    rcases (supported _ here).2 with ⟨root, member, same⟩ | ⟨holder, there, refers⟩
    · cases root with
      | scope other =>
        cases same
        exact absurd (older _ member) (Nat.lt_irrefl _)
      | value v => cases v <;> cases same
    · rcases Store.refers_scope refers with ⟨function, rfl, rfl⟩ | ⟨inner, scope, rfl, found, around⟩
      · obtain ⟨v, carries, part⟩ := Store.carries_of_occurs (supported _ there).1 (by simp)
        exact uncaptured ((safe.admits v carries).captured part)
      · have inside : id.index < inner.index := safe.sound.nested inner scope id found around
        have bounded : inner.index < s.next := safe.sound.numbered inner scope found
        refine ih _ ?_ (fun other member => Nat.lt_trans (older other member) inside) there ?_ rfl
        · omega
        · rintro ⟨after, found', marked⟩
          cases found.symm.trans found'
          exact uncaptured (safe.closed inner scope id found marked around)

end DisciplineData

/-- A point enters a scope to carry out the statements of a block or of a function. Whatever is
    `outer` is held until it has left the scope again. -/
inductive Enters : Point → List Root → List Stmt → Machine → Prop where
  | block {n : Nat} {held : List Root} {m : Machine} {body : List Stmt} :
      Enters ⟨n + 1, held, .statement (.block body), m⟩ held body m.enterBlock
  | body {n : Nat} {held : List Root} {m : Machine} {function : Closure} {line : Nat}
      {arguments : List Value} :
      Enters ⟨n + 1, held, .apply function line arguments, m⟩ (.scope function.scope :: held)
        function.declaration.body (m.enterFunction function arguments)

/-- When the program goes back to `previous`, the scope that it leaves is put down in the ledger if and
    only if it still exists without the program in it; it is freed only if it does not. -/
structure Machine.Departs (m : Machine) (previous : ScopeId) (held : List Root) : Prop where
  freed : m.store.isCaptured m.scope = false →
    ¬ m.store.Exists ({ m with scope := previous }.roots held) (.scope m.scope)
  noted : m.store.isReferred ({ m with scope := previous }.roots held) m.scope = true ↔
    m.store.Exists ({ m with scope := previous }.roots held) (.scope m.scope)

namespace Enters

variable {config : Config} {D : Discipline config} {p : Point} {outer : List Root}
  {body : List Stmt} {entered : Machine}

theorem calls (enters : Enters p outer body entered) {n : Nat} (steps : p.steps = n + 1) :
    Calls config p ⟨n, .scope p.machine.scope :: outer, .statements body, entered⟩ := by
  cases enters with
  | block =>
    cases steps
    exact .block
  | body =>
    cases steps
    exact .body

theorem scope_eq (enters : Enters p outer body entered) :
    entered.scope = ⟨p.machine.store.next⟩ := by
  cases enters <;> rfl

theorem globals_eq (enters : Enters p outer body entered) :
    entered.globals = p.machine.globals := by
  cases enters <;> rfl

/-- All scopes that are held meanwhile have been there before. -/
theorem older (enters : Enters p outer body entered) {layers after : List D.Layer}
    (ready : D.Ready p layers after) {other : ScopeId}
    (member : .scope other ∈ p.machine.roots outer) : other.index < p.machine.store.next := by
  have stands : p.machine.store.Stands other := by
    cases enters with
    | block => exact ready.safe.stands other member
    | body => exact (Discipline.function_stands ready).2 other member
  obtain ⟨scope, found, _⟩ := stands.exists
  exact ready.safe.sound.numbered other scope found

theorem departs (enters : Enters p outer body entered) {layers after : List D.Layer}
    (ready : D.Ready p layers after) {results : List Root} (values : ∀ id, .scope id ∉ results)
    {changing : ScopeId → Prop} {m' : Machine}
    (left : D.Left entered (.scope p.machine.scope :: outer) changing results m') :
    m'.Departs p.machine.scope (results ++ outer) := by
  have here : m'.scope = ⟨p.machine.store.next⟩ := left.later.scope.trans enters.scope_eq
  have safe : D.Safe m'.store ({ m' with scope := p.machine.scope }.roots (results ++ outer)) := by
    refine left.safe.weaken fun root member => ?_
    simp only [Machine.roots, List.mem_cons, List.mem_append] at member ⊢
    grind
  have older : ∀ other,
      .scope other ∈ { m' with scope := p.machine.scope }.roots (results ++ outer) →
        other.index < m'.scope.index := by
    intro other member
    rw [here]
    refine enters.older ready ?_
    simp only [Machine.roots, List.mem_cons, List.mem_append] at member ⊢
    rcases member with same | same | new | old
    · exact .inl (same.trans (by rw [left.later.globals, enters.globals_eq]))
    · exact .inr (.inl same)
    · exact absurd new (values other)
    · exact .inr (.inr old)
  refine ⟨fun unmarked existing => ?_, safe.isReferred_iff ?_⟩
  · exact DisciplineData.not_captured unmarked (safe.captured_of_exists older existing)
  · have stands : m'.store.Stands m'.scope :=
      left.safe.stands _ (List.mem_cons_of_mem _ List.mem_cons_self)
    exact stands.occurs

end Enters

namespace Session

variable {config : Config} {turns : List Turn} {turn : Turn} {held : List Root} {p : Point}

/-- Whenever a session leaves the scope of a block or of a function, however the statements in it
    have ended, the scope goes or stays as the references to it have it. -/
theorem left_scopes_counted (past : Past config turns turn.machine held) (fewer : turn.held ⊆ held)
    (sources : ∀ each ∈ turn :: turns, ∃ request : Request, request.work = .ok each.work)
    (passes : turn.Passes config p) {n : Nat} (steps : p.steps = n + 1) {outer : List Root}
    {body : List Stmt} {entered : Machine} (enters : Enters p outer body entered) :
    (executeAll config n (.scope p.machine.scope :: outer) body entered).Sat
      (fun flow m' => m'.Departs p.machine.scope (flow.roots ++ outer))
      (fun m' => m'.Departs p.machine.scope outer) := by
  obtain ⟨layers, after, ready⟩ :=
    Discipline.ready_of_passes rfl past fewer (Grammatical.fits_of_sources config sources) passes
  obtain ⟨inside, last, started⟩ := Discipline.ready_of_calls ready (enters.calls steps)
  refine Outcome.Sat.mono ((Discipline.written config).preserves n started)
    (fun flow m' finished => ?_) fun m' left => ?_
  · exact enters.departs ready (by cases flow <;> simp [Flow.roots]) finished.toLeft
  · exact enters.departs ready (by simp) left

private def forgetting : List UInt8 := "{ fun f() {} f = nil; }".toUTF8.toList

private def tracked? : Report Unit → Option Nat
  | .done _ m => some m.ledger.tracked
  | .failed _ _ | .unfinished => none

-- Only the globals have a handle then.
example : tracked? (run .standard 12 [] forgetting .start) = some 1 := by
  unfold forgetting
  cbv

end Session
end Lox
