import Lox.Proofs.Renaming.Naming

namespace Lox

open Resolve

def Marking.Fits (k : Marking) (marked : Bool) (scopes : List Names) : Prop :=
  (scopes = [] → marked = false) ∧
    ∀ names ∈ scopes.head?, ∀ name, names.lookup name ≠ none → k.Allows marked name

namespace Marking

variable {k : Marking} {marked : Bool} {scopes after : List Names}

theorem Fits.globals : k.Fits false [] := ⟨fun _ => rfl, nofun⟩

theorem Fits.cons {names : Names}
    (allowed : ∀ name, names.lookup name ≠ none → k.Allows marked name) :
    k.Fits marked (names :: scopes) := by
  refine ⟨nofun, ?_⟩
  rintro _ ⟨⟩
  exact allowed

/-- The innermost scope may get a name that it may bind. -/
theorem Fits.change (fits : k.Fits marked scopes) {name : Token}
    (allowed : k.Allows marked name.lexeme)
    (same : ∀ names outer, scopes = names :: outer → ∃ names', after = names' :: outer ∧
      ∀ other, other ≠ name.lexeme → names'.lookup other = names.lookup other)
    (globals : scopes = [] → after = []) : k.Fits marked after := by
  cases scopes with
  | nil =>
    cases globals rfl
    exact fits
  | cons names outer =>
    obtain ⟨names', rfl, others⟩ := same names outer rfl
    refine .cons fun other known => ?_
    by_cases own : other = name.lexeme
    · exact own ▸ allowed
    · exact fits.2 names rfl other (others other own ▸ known)

theorem Fits.declare (fits : k.Fits marked scopes) {name : Token}
    (allowed : k.Allows marked name.lexeme) : k.Fits marked (Resolve.declare scopes name).1 := by
  refine fits.change allowed (fun names outer same => ?_) fun same => ?_
  · subst same
    obtain ⟨names', after, others, _⟩ := declare_cons names outer name
    exact ⟨names', after, others⟩
  · rw [same]
    rfl

theorem Fits.introduce (fits : k.Fits marked scopes) {name : Token}
    (allowed : k.Allows marked name.lexeme) : k.Fits marked (Resolve.introduce scopes name).1 := by
  refine fits.change allowed (fun names outer same => ?_) fun same => ?_
  · subst same
    obtain ⟨names', after, _, others⟩ := introduce_cons names outer name
    exact ⟨names', after, others⟩
  · rw [same]
    rfl

theorem Fits.following {s : Stmt} (fits : k.Fits marked scopes) (obeys : s.Obeys k marked)
    (sees : Stmt.Sees scopes s after) : k.Fits marked after := by
  cases sees with
  | expression _ | print _ | block _ | branch _ _ _ | loop _ _ | returns _ => exact fits
  | varDecl _ _ =>
    cases obeys with
    | varDecl allowed initial => exact fits.introduce allowed
  | functionDecl _ =>
    cases obeys with
    | functionDecl allowed plain within => exact fits.introduce allowed
  | classDecl _ _ =>
    cases obeys with
    | classDecl allowed plain above within => exact fits.introduce allowed

end Marking

def DisciplineData.naming (config : Config) (turns : List Turn) (k : Marking) : DisciplineData :=
  { DisciplineData.visibility config turns with
    fits := fun p scopes after => (DisciplineData.visibility config turns).fits p scopes after ∧
      ∃ marked, k.Fits marked scopes ∧ p.task.Obeys k marked
    function := fun f scopes =>
      (DisciplineData.visibility config turns).function f scopes ∧ f.declaration.Obeys k
    method := fun f scopes =>
      (DisciplineData.visibility config turns).method f scopes ∧ f.declaration.Obeys k }

namespace Discipline

open Visibility

variable {config : Config} {turns : List Turn} {k : Marking}

theorem naming_weakens {strong weak : List Names}
    (weakens : (DisciplineData.visibility config turns).Weakens strong weak) :
    (DisciplineData.naming config turns k).Weakens strong weak :=
  ⟨weakens.chain, weakens.limits⟩

def naming (config : Config) (turns : List Turn) (k : Marking) : Discipline config where
  toDisciplineData := .naming config turns k
  holds_mono := (visibility config turns).holds_mono
  limits_mono := (visibility config turns).limits_mono
  limits_globals := (visibility config turns).limits_globals
  inner := by
    rintro p q scopes after ⟨fits, marked, allowed, obeys⟩ inner
    exact ⟨(visibility config turns).inner fits inner, marked, allowed, obeys.inner inner⟩
  initial := by
    rintro n held m name initializer scopes after ⟨fits, marked, allowed, obeys⟩
    cases obeys with
    | varDecl own initial =>
      exact ⟨_, naming_weakens (declare_weakens _ _), (initial_fits fits).1, marked,
        allowed.declare own, initial _ rfl⟩
  initialized fits := (visibility config turns).initialized fits.1
  declared := by
    rintro n held m declaration scopes after ⟨fits, marked, allowed, obeys⟩
    obtain ⟨defines, sees⟩ := (visibility config turns).declared fits
    cases obeys with
    | functionDecl own plain within =>
      exact ⟨defines, fun identity => ⟨sees identity, within⟩⟩
  superclass := by
    rintro n held m name superclass methods scopes after ⟨fits, marked, allowed, obeys⟩
    cases obeys with
    | classDecl own plain above within =>
      exact ⟨_, naming_weakens (.refl _ _), superclass_fits fits, marked, allowed, above _ rfl⟩
  named fits := (visibility config turns).named fits.1
  methods := by
    rintro n held m name methods scopes after ⟨fits, marked, allowed, obeys⟩ declaration member
      identity
    cases obeys with
    | classDecl own plain above within =>
      exact ⟨(visibility config turns).methods fits declaration member identity,
        within declaration member⟩
  inherited := by
    rintro n held m name superclass methods m' type scopes after ⟨fits, marked, allowed, obeys⟩
      ended
    obtain ⟨layer, holds, sees⟩ := (visibility config turns).inherited fits ended
    cases obeys with
    | classDecl own plain above within =>
      exact ⟨layer, holds, fun declaration member identity =>
        ⟨sees declaration member identity, within declaration member⟩⟩
  bound := by
    rintro p s method id type scopes after around ⟨fits, _⟩ binds ⟨sees, obeys⟩ chain
    obtain ⟨layer, holds, function⟩ := (visibility config turns).bound fits binds sees chain
    exact ⟨layer, holds, function, obeys⟩
  block := by
    rintro n held m body scopes after ⟨fits, marked, allowed, obeys⟩ _
    obtain ⟨rfl, inside, fit⟩ := block_fits fits
    cases obeys with
    | @block _ inner _ within =>
      refine ⟨naming_weakens (.refl _ _), ([] : Names), inside, ?_, ?_, fit, inner, .cons ?_,
        within⟩
      · exact fun name found => nomatch found
      · exact fun _ _ name impossible => impossible.elim
      · exact fun name known => absurd rfl known
  body := by
    rintro n held m f line arguments scopes after around ⟨fits, _⟩ ⟨sees, obeys⟩ _
    obtain ⟨names, inside, listed, exact, fit⟩ := body_fits fits sees.1
    obtain ⟨identity, ⟨name, params, body⟩, id, isInitializer⟩ := f
    cases obeys with
    | @intro inner _ _ _ named within =>
      refine ⟨names, inside, exact, fit, inner, .cons fun other known => ?_, within⟩
      rw [listed other] at known
      split at known
      · rename_i given
        obtain ⟨param, member, rfl⟩ := List.mem_map.mp given
        exact named param member
      · exact absurd rfl known
  plain fits shape := naming_weakens ((visibility config turns).plain fits.1 shape)
  thenBranch := by
    rintro n held m m' condition thenBranch elseBranch? value scopes after
      ⟨fits, marked, allowed, obeys⟩ first truthy
    obtain ⟨inside, weakens, fit⟩ := (visibility config turns).thenBranch fits first truthy
    cases obeys with
    | branch tested one two => exact ⟨inside, naming_weakens weakens, fit, marked, allowed, one⟩
  elseBranch := by
    rintro n held m m' condition thenBranch elseBranch value scopes after
      ⟨fits, marked, allowed, obeys⟩ first falsy
    cases obeys with
    | branch tested one two =>
      exact ⟨_, naming_weakens (.refl _ _), elseBranch_fits fits first falsy, marked, allowed,
        two _ rfl⟩
  skipped fits := naming_weakens ((visibility config turns).skipped fits.1)
  loop := by
    rintro n held m condition body scopes after ⟨fits, marked, allowed, obeys⟩
    cases obeys with
    | loop tested repeated =>
      exact ⟨(visibility config turns).loop fits, marked, allowed, tested, repeated⟩
  loopBody := by
    rintro n held m m' condition body value scopes after ⟨fits, marked, allowed, obeys⟩ first
      truthy
    obtain ⟨inside, weakens, fit⟩ := (visibility config turns).loopBody fits first truthy
    exact ⟨inside, naming_weakens weakens, fit, marked, allowed, obeys.2⟩
  loopAgain := by
    rintro n held m m' m'' condition body value scopes after ⟨fits, marked, allowed, obeys⟩
      first truthy second
    exact ⟨(visibility config turns).loopAgain fits first truthy second, marked, allowed, obeys⟩
  loopEnd fits := naming_weakens ((visibility config turns).loopEnd fits.1)
  first := by
    rintro n held m s rest scopes after ⟨fits, marked, allowed, obeys⟩
    obtain ⟨middle, fit, others⟩ := (visibility config turns).first fits
    obtain ⟨one, later⟩ := List.forall_mem_cons.mp obeys
    exact ⟨middle, ⟨fit, marked, allowed, one⟩, fun m' ended =>
      ⟨others m' ended, marked, allowed.following one fit.1.1, later⟩⟩
  last fits := naming_weakens ((visibility config turns).last fits.1)

section separates

variable {m : Machine} {marked : Bool} {scopes : List Names} {name : String}

/-- A name that is not the mark is told apart among the globals. -/
theorem apart_globals {s : Store} {globals : ScopeId} (unmarked : k.Allows false name) :
    s.Apart k.rewording globals globals name := by
  have same : k.rewording.name name = name := k.meant_of_ne unmarked
  unfold Store.Apart Rewording.key
  rw [if_pos rfl, same]
  exact ⟨rfl, fun _ _ other _ equal => (if_pos rfl).symm.trans equal⟩

theorem inner_of_amid (amid : (DisciplineData.naming config turns k).Amid k.rewording m scopes)
    {id parent : ScopeId} {scope : Scope} (found : m.store.scope? id = some scope)
    (around : scope.enclosing? = some parent) : id ≠ m.globals := by
  rintro rfl
  rw [amid.outermost scope found] at around
  cases around

theorem apart_of_defined (amid : (DisciplineData.naming config turns k).Amid k.rewording m scopes)
    {d : Nat} (defined : Defined scopes d name) :
    m.Apart k.rewording (some d) name := by
  intro outer there
  obtain ⟨names, here, found⟩ := defined
  obtain ⟨owner, parent, scope, hops, atOwner, around, known⟩ := amid.chain.at amid.nested here
  rw [hops] at there
  cases there
  have inner := inner_of_amid amid atOwner around
  refine ⟨if_neg inner, fun scope' found' other bound same => ?_⟩
  rw [atOwner] at found'
  cases found'
  obtain ⟨value, bound⟩ := bound
  obtain ⟨value', bound'⟩ := known name found
  exact amid.told _ scope inner atOwner name other value' value bound' bound
    ((if_neg inner).symm.trans same)

theorem apart_here (amid : (DisciplineData.naming config turns k).Amid k.rewording m scopes)
    (fits : k.Fits marked scopes) (allowed : k.Allows marked name) :
    m.store.Apart k.rewording m.globals m.scope name := by
  cases scopes with
  | nil =>
    have top : m.scope = m.globals := amid.chain.at_globals.trans amid.globals.symm
    rw [top]
    rw [fits.1 rfl] at allowed
    exact apart_globals allowed
  | cons names scopes =>
    obtain ⟨parent, scope, atScope, around, _, _⟩ := amid.chain.split
    have inner := inner_of_amid amid atScope around
    refine ⟨if_neg inner, fun scope' found' other bound same => ?_⟩
    have known : names.lookup other = some true :=
      amid.limits names rfl other ⟨scope', found', bound⟩
    exact Marking.meant_inj allowed (fits.2 names rfl other (by simp [known]))
      ((if_neg inner).symm.trans same)

theorem naming_separates (config : Config) (turns : List Turn) (k : Marking) :
    (naming config turns k).Separates k.rewording where
  used := by
    rintro n held e name distance scopes after m m' ⟨⟨⟨sees, _⟩, _⟩, marked, allowed,
      obeys⟩ used amid
    -- A use without a distance is one of a global; with one, it is seen in the scope that the
    -- distance leads to.
    cases distance with
    | none =>
      cases obeys with
      | «variable» outside | assign assigned outside | this outside =>
        cases used
        exact apart_globals (outside rfl)
      | _ => cases used
    | some d =>
      cases sees with
      | «variable» found | this found =>
        cases used
        exact apart_of_defined amid (found d rfl)
      | assign assigned found =>
        cases used
        obtain ⟨here, outer⟩ := found d rfl
        cases d with
        | succ d => exact apart_of_defined amid (outer (Nat.succ_ne_zero d))
        | zero =>
          obtain ⟨names, value, first, listed⟩ := declared_of_distance? here
          rintro _ ⟨⟩
          refine apart_here amid allowed (allowed.2 names ?_ _ (by simp [listed]))
          exact List.head?_eq_getElem?.trans first
      | _ => cases used
  declared := by
    rintro n held s name scopes after m m' ⟨_, marked, allowed, obeys⟩ declares amid
    cases obeys with
    | varDecl own _ | functionDecl own _ _ | classDecl own _ _ _ =>
      cases declares
      exact apart_here amid allowed own
    | _ => cases declares
  called := by
    rintro n held s name m scopes after ⟨_, marked, allowed, obeys⟩ called
    cases obeys with
    | functionDecl _ plain _ | classDecl _ plain _ _ =>
      cases called
      exact k.meant_of_ne plain
    | _ => cases called
  parameters := by
    rintro n held f line arguments m scopes after around _ ⟨_, obeys⟩ param given other given'
      same
    obtain ⟨identity, ⟨name, params, body⟩, id, isInitializer⟩ := f
    cases obeys with
    | intro named within =>
      exact Marking.meant_inj (named other given') (named param given) same

end separates

end Discipline

end Lox
