import Mathlib
import Lox.Proofs.Machine.Presence
import Lox.Proofs.Machine.Tracking
import Lox.Proofs.Session.Moments

namespace Lox

open Store

namespace Session

inductive Rests (config : Config) : Machine → List Root → Prop where
  | start : Rests config .start []
  | done {m m' : Machine} {held held' : List Root} {steps : Nat} {request : Request}
      {result : Result} (before : Rests config m held) (fewer : held' ⊆ held)
      (answered : answer config steps held' request m = .done result m') :
      Rests config m' (result.roots ++ held')
  | failed {m m' : Machine} {held held' : List Root} {steps : Nat} {request : Request}
      {error : RunError} (before : Rests config m held) (fewer : held' ⊆ held)
      (answered : answer config steps held' request m = .failed error m') :
      Rests config m' held'

variable {config : Config} {m : Machine} {held : List Root}

/-- A step that is refused before it runs is no turn; it may only let go of results. -/
theorem Rests.past (rests : Rests config m held) :
    ∃ turns kept, Past config turns m kept ∧ held ⊆ kept ∧
      ∀ turn ∈ turns, ∃ request : Request, request.work = .ok turn.work := by
  induction rests with
  | start => exact ⟨[], [], .start, List.Subset.refl _, by simp⟩
  | @done _ _ _ _ _ request _ before fewer answered ih =>
    obtain ⟨turns, kept, past, inside, sources⟩ := ih
    obtain ⟨work, compiled, ended⟩ := answer_done_iff.mp answered
    exact ⟨_, _, .done past (List.Subset.trans fewer inside) ended, List.Subset.refl _,
      List.forall_mem_cons.mpr ⟨⟨request, compiled⟩, sources⟩⟩
  | @failed _ _ _ _ _ request _ before fewer answered ih =>
    obtain ⟨turns, kept, past, inside, sources⟩ := ih
    rcases answer_failed_iff.mp answered with ⟨_, _, _, rfl⟩ | ⟨work, fault, compiled, ended, _⟩
    · exact ⟨turns, kept, past, List.Subset.trans fewer inside, sources⟩
    · exact ⟨_, _, .failed past (List.Subset.trans fewer inside) ended, List.Subset.refl _,
        List.forall_mem_cons.mpr ⟨⟨request, compiled⟩, sources⟩⟩

end Session

namespace Store

/-- Every scope that exists is held, has a handle or recedes, and every instance has a handle. -/
structure Covered (s : Store) (roots : List Root) (l : Ledger) : Prop where
  scopes : ∀ id scope, s.scope? id = some scope →
    .scope id ∈ roots ∨ .scope id ∈ l.handles ∨ scope.bindings.Recede id
  instances : ∀ id fields, s.fields? id = some fields → .instance id ∈ l.handles

theorem mem_keys_of_handle {l : Ledger} {node : Node} (member : node ∈ l.handles) :
    node.key ∈ l.keys :=
  List.mem_map_of_mem (Array.mem_toList_iff.mpr member)

/-- Whoever refers to something through bindings or fields is held, has a handle or is younger. -/
theorem Covered.loose_cases {s : Store} {roots : List Root} {l : Ledger}
    (covered : s.Covered roots l) {holder object : Object}
    (loose : object ∈ holder.loose s) :
    (∃ root ∈ roots, root.object? = some holder) ∨ holder.key ∈ l.keys ∨
      object.key < holder.key := by
  cases holder with
  | scope id =>
    cases found : s.scope? id with
    | none =>
      rw [Object.loose, found] at loose
      cases loose
    | some scope =>
      rw [Object.loose, found] at loose
      obtain ⟨entry, member, same⟩ := Bindings.mem_bound_iff.mp loose
      rcases covered.scopes id scope found with here | handle | recedes
      · exact .inl ⟨.scope id, here, rfl⟩
      · exact .inr (.inl (mem_keys_of_handle handle))
      · exact .inr (.inr ((recedes entry member).2 object same))
  | «instance» id type =>
    cases found : s.fields? id with
    | none =>
      rw [Object.loose, found] at loose
      cases loose
    | some fields => exact .inr (.inl (mem_keys_of_handle (covered.instances id fields found)))
  | closure _ | «class» _ => cases loose

end Store

namespace DisciplineData

variable {config : Config} {D : Discipline config} {s : Store} {roots : List Root} {l : Ledger}
  {order : Arrangement} {borrowed : Nat → Bool}

/-- Each thing that cannot be reached is kept up by another one like it; as no chain of ever younger
    ones goes on forever, one of them has a handle. -/
theorem Safe.fromHandle_of_not_leads (safe : D.Safe s roots) (covered : s.Covered roots l)
    {object : Object} (existing : s.Exists roots object) (apart : ¬ s.Leads roots object) :
    s.FromHandle roots l object := by
  obtain ⟨alive, here, supported⟩ := existing
  -- Follow the holders: their numbers grow, and no number reaches `s.next`.
  induction younger : s.next - object.key using Nat.strongRecOn generalizing object with
  | _ younger ih =>
    rcases (supported object here).2 with ⟨root, member, same⟩ | ⟨holder, there, refers⟩
    · exact absurd (.root member same) apart
    · have holding : s.Exists roots holder := ⟨alive, there, supported⟩
      have bounded := safe.sound.bounded holder (.occurs holding.occurs)
      have further (older : object.key < holder.key) : s.FromHandle roots l object := by
        refine .step (ih _ (by omega) (fun leads => apart (leads.step refers)) there rfl) holding refers
      rcases refers with lasting | loose
      · exact further (safe.sound.aged holder holding.occurs object lasting)
      · rcases covered.loose_cases loose with ⟨root, member, same⟩ | handle | older
        · exact absurd (.step (.root member same) (.inr loose)) apart
        · exact .step (.start handle) holding (.inr loose)
        · exact further older

theorem Safe.leads_of_live (safe : D.Safe s roots) (covered : s.Covered roots l) {object : Object}
    (live : s.Live roots l object) : s.Leads roots object := by
  induction live with
  | start outside =>
    rcases outside with ⟨root, member, same⟩ | ⟨holder, existing, refers, free⟩
    · exact .root member same
    · by_contra apart
      exact free (safe.fromHandle_of_not_leads covered existing fun leads => apart (leads.step refers))
  | step _ _ refers ih => exact ih.step refers

/-- A collection leaves what can be reached and nothing else. -/
theorem Safe.exists_collect_iff (safe : D.Safe s roots) (covered : s.Covered roots l)
    (borrowedHeld : ∀ key, borrowed key = true → key ∈ Root.keys roots) {object : Object} :
    (collectWith order borrowed s l roots).1.Exists roots object ↔ s.Leads roots object := by
  constructor
  · intro left
    obtain ⟨existing, live⟩ := (safe.sound.exists_collect_iff borrowedHeld).mp left
    by_contra apart
    exact apart (safe.leads_of_live covered
      (live (safe.fromHandle_of_not_leads covered existing apart)))
  · intro leads
    have here : object.key ∈ s.kept order borrowed l roots := safe.kept_of_leads borrowedHeld leads
    exact safe.sound.exists_of_occurs_collect borrowedHeld
      (safe.sound.occurs_collect borrowedHeld (safe.occurs_of_leads leads) here)

end DisciplineData

namespace Session

variable {config : Config} {m : Machine} {held roots : List Root}

theorem Rests.safe_covered (rests : Rests config m held) {fewer : List Root} (kept : fewer ⊆ held) :
    (Discipline.written config).Safe m.store (.scope m.globals :: fewer) ∧
      m.store.Covered (.scope m.globals :: fewer) m.ledger := by
  obtain ⟨turns, all, past, inside, sources⟩ := rests.past
  have fits := Grammatical.fits_of_sources config sources
  have rested : (Discipline.written config).Rested m all := Discipline.rested_of_past rfl past fits
  have start : Machine.start.Accounted (· = Machine.start.globals) := by
    refine ⟨rfl, rfl, fun id scope found => .inl ?_, fun id fields found => ?_⟩
    · rcases bindings_newScope found with ⟨same, _⟩ | before
      · exact same
      · simp [Store.empty, Store.scope?] at before
    · exact absurd found (by simp [Machine.start, Store.empty, Store.fields?, Store.newScope])
  have accounted : m.Accounted (· = Machine.start.globals) :=
    Session.keeps (U := .accounted config) past (fun turn member p starts =>
      Discipline.ready_of_past rfl past fits member ⟨p, starts, .refl⟩) start
  refine ⟨rested.safe.weaken fun root member => ?_, fun id scope found => ?_, accounted.instances⟩
  · rcases List.mem_cons.mp member with rfl | old
    · exact List.mem_cons_self
    · exact List.mem_cons_of_mem _ (List.mem_cons_of_mem _ (inside (kept old)))
  · refine (accounted.scopes id scope found).imp_left ?_
    rintro rfl
    exact rested.globals ▸ List.mem_cons_self

/-- Whatever a session has run, once control is back with whoever asks, a single collection leaves
    exactly the scopes and instances that can be reached from the globals or from what is held. All
    else that still exists, a handle leads to. -/
theorem no_garbage_survives (rests : Rests config m held) {fewer : List Root} (kept : fewer ⊆ held)
    (order : Arrangement) (borrowed : Nat → Bool)
    (borrowedHeld : ∀ key, borrowed key = true → key ∈ Root.keys (.scope m.globals :: fewer)) :
    (∀ node, (collectWith order borrowed m.store m.ledger (.scope m.globals :: fewer)).1.holds node =
        true ↔
      ∃ object, object.node? = some node ∧ m.store.Leads (.scope m.globals :: fewer) object) ∧
    ∀ object, m.store.Exists (.scope m.globals :: fewer) object →
      ¬ m.store.Leads (.scope m.globals :: fewer) object →
      m.store.FromHandle (.scope m.globals :: fewer) m.ledger object := by
  obtain ⟨safe, covered⟩ := rests.safe_covered kept
  refine ⟨fun node => ?_, fun object => safe.fromHandle_of_not_leads covered⟩
  rw [safe.sound.holds_collect_iff borrowedHeld]
  simp only [safe.exists_collect_iff covered borrowedHeld]

private def tying : List UInt8 := "class A{m(){}}var a=A();a.f=a.m;a=nil;".toUTF8.toList

private def stays? (node : Node) : Report Result → Option (Bool × Bool)
  | .done _ m => some (m.store.holds node, (collect m.store m.ledger [.scope m.globals]).1.holds node)
  | _ => none

/-- The instance is there until then, but nothing that is held leads to it, so it goes. -/
theorem tied_instance_goes : ∃ m held, Rests .standard m held ∧
    m.store.holds (.instance ⟨3⟩) = true ∧
    (collect m.store m.ledger [.scope m.globals]).1.holds (.instance ⟨3⟩) = false ∧
    ¬ ∃ object, object.node? = some (.instance ⟨3⟩) ∧ m.store.Leads [.scope m.globals] object := by
  have shown : stays? (.instance ⟨3⟩) (answer .standard 30 [] (.run tying) .start) =
      some (true, false) := by
    unfold tying
    cbv
  cases answered : answer .standard 30 [] (.run tying) .start with
  | done result m =>
    rw [answered] at shown
    obtain ⟨before, after⟩ := Prod.mk.inj (Option.some.inj shown)
    have rests : Rests .standard m (result.roots ++ []) := .done .start (List.Subset.refl []) answered
    have remains := (no_garbage_survives rests (List.nil_subset _) .given (fun _ => false)
      (by simp)).1 (.instance ⟨3⟩)
    refine ⟨m, _, rests, before, after, fun leads => ?_⟩
    have left : (collect m.store m.ledger [.scope m.globals]).1.holds (.instance ⟨3⟩) = true :=
      remains.mpr leads
    rw [after] at left
    cases left
  | failed error m =>
    rw [answered] at shown
    cases shown
  | unfinished =>
    rw [answered] at shown
    cases shown

end Session
end Lox
