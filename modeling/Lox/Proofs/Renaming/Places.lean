import Lox.Proofs.Renaming.Walks
import Lox.Proofs.Renaming.Separation

namespace Lox

open Resolve

def Stmt.Introduces (s : Stmt) (name : String) : Prop :=
  name ∈ s.made ∨ ∃ declared initializer?, s = .varDecl declared initializer? ∧
    declared.lexeme = name

namespace Resolve

variable {context : Context} {names : Names} {scopes : List Names} {old : String}

theorem tree_declares (context : Context) (scopes : List Names) (s : Stmt) :
    (statement context scopes s).tree.declares = s.declares := by
  cases s with
  | expression _ | print _ | varDecl _ _ | block _ | loop _ _ | returns _ _ => rfl
  | branch _ _ elseBranch? => cases elseBranch? <;> rfl
  | functionDecl declaration =>
    cases declaration
    rfl
  | classDecl _ superclass? _ => cases superclass? <;> rfl

theorem tree_plain {s : Stmt} (written : s.Written) {name : Token} {initializer? : Option Expr}
    (tree : (statement context scopes s).tree = .varDecl name initializer?) : name.Plain := by
  cases written with
  | varDecl plain _ =>
    cases tree
    exact plain
  | expression _ | print _ | block _ | loop _ _ _ | functionDecl _ _ _ | returns _ => cases tree
  | @branch _ _ elseBranch? _ _ _ _ _ => cases elseBranch? <;> cases tree
  | @classDecl _ superclass? _ _ _ _ _ => cases superclass? <;> cases tree

/-- What a declaration introduces was not known before, and is known from then on. -/
theorem introduce_known {t : Token} (fresh : (declare (names :: scopes) t).2 = [])
    {introduces : String → Prop} (only : ∀ name, introduces name → name = t.lexeme) :
    ∃ names', (introduce (names :: scopes) t).1 = names' :: scopes ∧
      (∀ name, names.lookup name ≠ none → names'.lookup name ≠ none) ∧
      ∀ name, introduces name → names.lookup name = none ∧ names'.lookup name ≠ none := by
  obtain ⟨names', same, here, others⟩ := introduce_cons names scopes t
  refine ⟨names', same, fun name known => ?_, fun name introduced => ?_⟩
  · by_cases own : name = t.lexeme
    · simp [own, here]
    · rwa [others name own]
  · rw [only name introduced]
    exact ⟨unknown_of_declare fresh, by simp [here]⟩

theorem statement_introduces {s : Stmt} (written : s.Written)
    (accepted : (statement context (names :: scopes) s).errors = []) :
    ∃ names', (statement context (names :: scopes) s).scopes = names' :: scopes ∧
      (∀ name, names.lookup name ≠ none → names'.lookup name ≠ none) ∧
      ∀ name, (statement context (names :: scopes) s).tree.Introduces name →
        names.lookup name = none ∧ names'.lookup name ≠ none := by
  cases silent : s.declares with
  | false =>
    -- What is no declaration leaves the scopes as they are and makes no name.
    obtain ⟨same, made⟩ := @bare_leaves s written silent context (names :: scopes)
    refine ⟨names, same, fun _ known => known, ?_⟩
    rintro name (member | ⟨declared, initializer?, tree, _⟩)
    · rw [made] at member
      cases member
    · rw [← tree_declares context (names :: scopes) s, tree] at silent
      cases silent
  | true =>
    cases written with
    | expression _ | print _ | block _ | branch _ _ _ _ _ | loop _ _ _ | returns _ => cases silent
    | varDecl _ _ =>
      refine introduce_known (List.append_eq_nil_iff.mp accepted).1 ?_
      rintro _ (member | ⟨_, _, ⟨⟩, rfl⟩)
      · cases member
      · rfl
    | functionDecl _ _ _ =>
      refine introduce_known (List.append_eq_nil_iff.mp accepted).1 ?_
      rintro _ (member | ⟨_, _, ⟨⟩, _⟩)
      exact List.mem_singleton.mp member
    | @classDecl name superclass? methods _ _ _ _ =>
      have fresh : (declare (names :: scopes) name).2 = [] := by
        cases superclass? with
        | none => exact (List.append_eq_nil_iff.mp accepted).1
        | some superclass =>
          obtain ⟨before, _⟩ := List.append_eq_nil_iff.mp accepted
          obtain ⟨before, _⟩ := List.append_eq_nil_iff.mp before
          exact (List.append_eq_nil_iff.mp before).1
      cases superclass? with
      | none | some _ =>
        refine introduce_known fresh ?_
        rintro _ (member | ⟨_, _, ⟨⟩, _⟩)
        exact List.mem_singleton.mp member

theorem known_once {ss : List Stmt} (written : ∀ s ∈ ss, s.Written)
    (accepted : (statements context (names :: scopes) ss).errors = []) {name : String}
    (known : names.lookup name ≠ none) :
    ∀ s ∈ (statements context (names :: scopes) ss).tree, ¬s.Introduces name := by
  induction ss generalizing names with
  | nil => exact nofun
  | cons s rest ih =>
    obtain ⟨first, later⟩ := List.forall_mem_cons.mp written
    obtain ⟨one, others⟩ := List.append_eq_nil_iff.mp accepted
    obtain ⟨names', same, kept, new⟩ := statement_introduces first one
    rw [same] at others
    refine List.forall_mem_cons.mpr ⟨fun introduces => known (new name introduces).1, ?_⟩
    rw [same]
    exact ih later others (kept name known)

/-- No function and no class is called like a variable of the same scope. -/
theorem declared_once {ss : List Stmt} (written : ∀ s ∈ ss, s.Written)
    (accepted : (statements context (names :: scopes) ss).errors = [])
    (declares : DeclaresVariable old (statements context (names :: scopes) ss).tree) :
    ∀ s ∈ (statements context (names :: scopes) ss).tree, old ∉ s.made := by
  induction ss generalizing names with
  | nil => exact nofun
  | cons s rest ih =>
    obtain ⟨first, later⟩ := List.forall_mem_cons.mp written
    obtain ⟨one, others⟩ := List.append_eq_nil_iff.mp accepted
    obtain ⟨names', same, _, new⟩ := statement_introduces first one
    obtain ⟨declared, initializer?, member, called⟩ := declares
    rw [statements] at member ⊢
    dsimp only at member others ⊢
    rw [same] at member others ⊢
    rcases List.mem_cons.mp member with here | inside
    · have own := new old (.inr ⟨declared, initializer?, here.symm, called⟩)
      refine List.forall_mem_cons.mpr ⟨?_, fun s member made => ?_⟩
      · rw [← here]
        exact List.not_mem_nil
      · exact known_once later others own.2 s member (.inl made)
    · refine List.forall_mem_cons.mpr ⟨fun made => ?_, ?_⟩
      · exact known_once later others (new old (.inl made)).2 _ inside
          (.inr ⟨declared, initializer?, rfl, called⟩)
      · exact ih later others ⟨declared, initializer?, inside, called⟩

theorem declared_plain {ss : List Stmt} (written : ∀ s ∈ ss, s.Written)
    (declares : DeclaresVariable old (statements context scopes ss).tree) :
    old ≠ "this" ∧ old ≠ "super" := by
  induction ss generalizing scopes with
  | nil =>
    obtain ⟨_, _, impossible, _⟩ := declares
    cases impossible
  | cons s rest ih =>
    obtain ⟨first, later⟩ := List.forall_mem_cons.mp written
    obtain ⟨declared, initializer?, member, called⟩ := declares
    rcases List.mem_cons.mp member with here | inside
    · have plain : declared.Plain := tree_plain first here.symm
      exact called ▸ plain
    · exact ih later ⟨declared, initializer?, inside, called⟩

theorem walked_eq {α : Type} {walked : Walked α} {tree : α} {after : List Names}
    (same : walked.tree = tree) (scopes : walked.scopes = after) (accepted : walked.errors = []) :
    walked = ⟨tree, after, []⟩ := by
  obtain ⟨_, _, _⟩ := walked
  simp_all

def Marked {α : Type} (old : String) (names : List String) (obeys : Marking → α → Prop)
    (rename : String → α) : Prop :=
  ∀ k : Marking, k.Absent names → (k.name = old ∨ k.name ∉ names) →
    obeys k (rename k.mark)

structure Renamable (old : String) (context : Context) (scopes : List Names) (s : Stmt)
    (rename : String → Stmt) : Prop where
  plain : old ≠ "this" ∧ old ≠ "super"
  resolves : ∀ new, Spare old new scopes → new ∉ (statement context scopes s).tree.names →
    ∃ s' : Stmt, s'.Written ∧ s'.declares = s.declares ∧
      statement context scopes s' = ⟨rename new, (statement context scopes s).scopes, []⟩
  obeys : Marked old (statement context scopes s).tree.names (fun k s => s.Obeys k false) rename

structure RenamableAll (old : String) (context : Context) (scopes : List Names) (ss : List Stmt)
    (rename : String → List Stmt) : Prop where
  plain : old ≠ "this" ∧ old ≠ "super"
  resolves : ∀ new, Spare old new scopes →
    new ∉ Stmt.namesAll (statements context scopes ss).tree →
    ∃ ss' : List Stmt, (∀ s ∈ ss', s.Written) ∧
      statements context scopes ss' = ⟨rename new, (statements context scopes ss).scopes, []⟩
  obeys : Marked old (Stmt.namesAll (statements context scopes ss).tree)
    (fun k ss => ∀ s ∈ ss, s.Obeys k false) rename

def CanRename (old : String) (s : Stmt) : Prop :=
  ∀ {context : Context} {scopes : List Names} {rename : String → Stmt},
    (statement context scopes s).errors = [] →
    (statement context scopes s).tree.Renames old rename → Renamable old context scopes s rename

theorem Marked.part {α β : Type} {names names' : List String} {obeys : Marking → α → Prop}
    {obeys' : Marking → β → Prop} {rename : String → α} {rename' : String → β}
    (marked : Marked old names obeys rename) (inside : names ⊆ names')
    (whole : ∀ k : Marking, k.Absent names' → obeys k (rename k.mark) →
      obeys' k (rename' k.mark)) : Marked old names' obeys' rename' :=
  fun k absent known => whole k absent (marked k (fun name member => absent name (inside member))
    (known.imp_right fun out member => out (inside member)))

theorem statements_renamable {ss : List Stmt} (written : ∀ s ∈ ss, s.Written)
    (each : ∀ s ∈ ss, CanRename old s) {rename : String → List Stmt}
    (accepted : (statements context scopes ss).errors = [])
    (renames : Stmt.RenamesOne old (statements context scopes ss).tree rename) :
    RenamableAll old context scopes ss rename := by
  induction ss generalizing scopes rename with
  | nil => cases renames
  | cons s rest ih =>
    obtain ⟨first, later⟩ := List.forall_mem_cons.mp written
    obtain ⟨head, tail⟩ := List.forall_mem_cons.mp each
    obtain ⟨one, others⟩ := List.append_eq_nil_iff.mp accepted
    rw [statements] at renames
    -- The statement with the variable leaves the same scopes, so what follows is resolved as
    -- before.
    cases renames with
    | head renamed =>
      obtain ⟨proper, resolves, obeys⟩ := head one renamed
      refine ⟨proper, fun new spare absent => ?_, obeys.part (List.subset_append_left _ _) ?_⟩
      · obtain ⟨out, _⟩ := not_or.mp (absent ∘ List.mem_append.mpr)
        obtain ⟨s', good, _, same⟩ := resolves new spare out
        refine ⟨s' :: rest, List.forall_mem_cons.mpr ⟨good, later⟩, ?_⟩
        rw [statements, same, others]
        rfl
      · exact fun k absent obeys => List.forall_mem_cons.mpr
          ⟨obeys, Marking.statements_unmarked absent.append.2⟩
    | tail renamed =>
      obtain ⟨proper, resolves, obeys⟩ := ih later tail others renamed
      refine ⟨proper, fun new spare absent => ?_, obeys.part (List.subset_append_right _ _) ?_⟩
      · obtain ⟨out, out'⟩ := not_or.mp (absent ∘ List.mem_append.mpr)
        obtain ⟨rest', goods, same⟩ := resolves new (spare_after first spare out) out'
        refine ⟨s :: rest', List.forall_mem_cons.mpr ⟨first, goods⟩, ?_⟩
        rw [statements, same, one]
        rfl
      · exact fun k absent obeys => List.forall_mem_cons.mpr
          ⟨Marking.statement_unmarked absent.append.1, obeys⟩

theorem free_of_known {k : Marking} {ss : List Stmt} {names : List String}
    (inside : Stmt.namesAll ss ⊆ names) (others : ∀ s ∈ ss, old ∉ s.made)
    (known : k.name = old ∨ k.name ∉ names) : ∀ s ∈ ss, k.Free old s.names s.made := by
  refine fun s member => ⟨known.imp_right fun out inner => ?_, fun made => ?_⟩
  · exact out (inside (Stmt.names_subset member inner))
  · rcases known with same | out
    · exact others s member (same ▸ made)
    · exact out (inside (Stmt.names_subset member (s.made_subset made)))

section function

variable {name : Token} {params : List Token} {body : List Stmt}

structure RenamableFunction (old : String) (context : Context) (scopes : List Names) (name : Token)
    (params : List Token) (body : List Stmt) (rename : String → FunctionDecl) : Prop where
  plain : old ≠ "this" ∧ old ≠ "super"
  resolves : ∀ new, Spare old new scopes →
    new ∉ (function context scopes (.mk name params body)).1.names →
    ∃ (params' : List Token) (body' : List Stmt), (∀ param ∈ params', param.Plain) ∧
      (∀ s ∈ body', s.Written) ∧
      function context scopes (.mk name params' body') = (rename new, [])
  obeys : Marked old (function context scopes (.mk name params body)).1.names
    (fun k declaration => declaration.Obeys k) rename

theorem function_renamable (plain : ∀ param ∈ params, param.Plain)
    (written : ∀ s ∈ body, s.Written) (each : ∀ s ∈ body, CanRename old s)
    {rename : String → FunctionDecl}
    (accepted : (function context scopes (.mk name params body)).2 = [])
    (renames : (function context scopes (.mk name params body)).1.Renames old rename) :
    RenamableFunction old context scopes name params body rename := by
  obtain ⟨one, two⟩ := List.append_eq_nil_iff.mp accepted
  rw [function_eq] at renames
  cases renames with
  | own declares =>
    obtain ⟨names, same, listed⟩ := Visibility.introduceAll_cons [] scopes params
    -- In the scope of the function itself, nothing else is called like the variable.
    have others : ∀ s ∈ (function context scopes (.mk name params body)).1.body,
        old ∉ s.made := by
      rw [function_eq]
      rw [same] at two declares ⊢
      rcases declares with given | declares
      · exact fun s member made => known_once written two (by simp [listed, given]) s member
          (.inl made)
      · exact declared_once written two declares
    have proper : old ≠ "this" ∧ old ≠ "super" := by
      rcases declares with given | declares
      · obtain ⟨param, member, rfl⟩ := List.mem_map.mp given
        exact plain param member
      · exact declared_plain written declares
    refine ⟨proper, fun new spare absent => ?_, fun k absent known => ?_⟩
    · obtain ⟨body', goods, same⟩ := function_renamed_own written
        (fun s member => statement_carries (written s member)) spare accepted absent others
      refine ⟨params.map (Token.renamed old new), body', fun param member => ?_, goods, same⟩
      obtain ⟨before, there, rfl⟩ := List.mem_map.mp member
      exact plain_renamed spare True (plain before there)
    · obtain ⟨before, inside⟩ := absent.append
      have free : ∀ s ∈ (function context scopes (.mk name params body)).1.body,
          k.Free old s.names s.made := free_of_known (List.subset_append_right _ _) others known
      have named : ∀ param ∈ params.map (Token.renamed old k.mark),
          k.Allows (0 == 0) param.lexeme := by
        intro param member
        obtain ⟨param, given, rfl⟩ := List.mem_map.mp member
        have there := List.mem_map_of_mem (f := Token.lexeme) given
        refine Marking.allows_declared (before.cons.2 _ there) fun _ => ?_
        exact known.imp_right fun out same =>
          out (same ▸ List.mem_append_left _ (List.mem_cons_of_mem _ there))
      exact .intro named (Marking.statements_obey old 0 _ inside fun _ => free)
  | inside renamed =>
    obtain ⟨proper, resolves, obeys⟩ := statements_renamable written each two renamed
    refine ⟨proper, fun new spare absent => ?_, obeys.part (List.subset_append_right _ _) ?_⟩
    · obtain ⟨out, out'⟩ := not_or.mp (absent ∘ List.mem_append.mpr)
      obtain ⟨_, out⟩ := not_or.mp (out ∘ List.mem_cons.mpr)
      have inner : Spare old new ([] :: scopes) := spare.cons rfl
      obtain ⟨body', goods, same⟩ := resolves new (inner.introduceAll fun param member same =>
        out (same ▸ List.mem_map_of_mem member)) out'
      refine ⟨params, body', plain, goods, ?_⟩
      rw [function_eq, one, same]
      rfl
    · intro k absent obeys
      have named : ∀ param ∈ params, k.Allows false param.lexeme := fun param member =>
        absent.append.1.cons.2 _ (List.mem_map_of_mem member)
      exact .intro named obeys

end function

structure RenamableMethods (old : String) (context : Context) (scopes : List Names)
    (declared : List FunctionDecl) (rename : String → List FunctionDecl) : Prop where
  plain : old ≠ "this" ∧ old ≠ "super"
  resolves : ∀ new, Spare old new scopes →
    new ∉ FunctionDecl.namesAll (methods context scopes declared).1 →
    ∃ declared' : List FunctionDecl,
      (∀ method ∈ declared', ∀ param ∈ method.params, param.Plain) ∧
      (∀ method ∈ declared', ∀ s ∈ method.body, s.Written) ∧
      methods context scopes declared' = (rename new, [])
  obeys : Marked old (FunctionDecl.namesAll (methods context scopes declared).1)
    (fun k declared => ∀ method ∈ declared, method.Obeys k) rename

theorem methods_renamable {declared : List FunctionDecl}
    (plain : ∀ method ∈ declared, ∀ param ∈ method.params, param.Plain)
    (written : ∀ method ∈ declared, ∀ s ∈ method.body, s.Written)
    (each : ∀ method ∈ declared, ∀ s ∈ method.body, CanRename old s)
    {rename : String → List FunctionDecl} (accepted : (methods context scopes declared).2 = [])
    (renames : FunctionDecl.RenamesOne old (methods context scopes declared).1 rename) :
    RenamableMethods old context scopes declared rename := by
  induction declared generalizing rename with
  | nil => cases renames
  | cons method rest ih =>
    obtain ⟨name, params, body⟩ := method
    obtain ⟨first, later⟩ := List.forall_mem_cons.mp written
    obtain ⟨head, tail⟩ := List.forall_mem_cons.mp each
    obtain ⟨named, names⟩ := List.forall_mem_cons.mp plain
    obtain ⟨one, others⟩ := List.append_eq_nil_iff.mp accepted
    rw [methods] at renames
    -- The declaration lies in one method, and all others stay as they are.
    cases renames with
    | head renamed =>
      obtain ⟨proper, resolves, obeys⟩ := function_renamable named first head one renamed
      refine ⟨proper, fun new spare absent => ?_, obeys.part (List.subset_append_left _ _) ?_⟩
      · obtain ⟨out, _⟩ := not_or.mp (absent ∘ List.mem_append.mpr)
        obtain ⟨params', body', plain', good, same⟩ := resolves new spare out
        refine ⟨.mk name params' body' :: rest, List.forall_mem_cons.mpr ⟨plain', names⟩,
          List.forall_mem_cons.mpr ⟨good, later⟩, ?_⟩
        rw [methods, same]
        exact congrArg (Prod.mk _) others
      · exact fun k absent obeys => List.forall_mem_cons.mpr
          ⟨obeys, Marking.functions_unmarked absent.append.2⟩
    | tail renamed =>
      obtain ⟨proper, resolves, obeys⟩ := ih names later tail others renamed
      refine ⟨proper, fun new spare absent => ?_, obeys.part (List.subset_append_right _ _) ?_⟩
      · obtain ⟨_, out⟩ := not_or.mp (absent ∘ List.mem_append.mpr)
        obtain ⟨rest', plain', goods, same⟩ := resolves new spare out
        refine ⟨.mk name params body :: rest', List.forall_mem_cons.mpr ⟨named, plain'⟩,
          List.forall_mem_cons.mpr ⟨first, goods⟩, ?_⟩
        rw [methods, same]
        show (_, (function _ scopes (.mk name params body)).2 ++ []) = _
        rw [List.append_nil]
        exact congrArg (Prod.mk _) one
      · exact fun k absent obeys => List.forall_mem_cons.mpr
          ⟨Marking.function_unmarked absent.append.1, obeys⟩

theorem block_renamable {body : List Stmt} (written : ∀ s ∈ body, s.Written)
    (each : ∀ s ∈ body, CanRename old s) : CanRename old (.block body) := by
  intro context scopes rename accepted renames
  rw [statement] at renames
  cases renames with
  | block declares =>
    have others := declared_once written accepted declares
    refine ⟨declared_plain written declares, fun new spare absent => ?_, fun k absent known => ?_⟩
    · have inner : Spare old new ([] :: scopes) := spare.cons rfl
      obtain ⟨body', within, same⟩ := statements_renamed written
        (fun s member => statement_carries (written s member)) inner accepted absent
        fun _ : 0 = 0 => others
      replace same : statements context ([] :: scopes) body' = _ := same
      refine ⟨.block body', .block within, rfl, ?_⟩
      rw [statement, same]
      rfl
    · exact .block (Marking.statements_obey old 0 _ absent fun _ =>
        free_of_known (List.Subset.refl _) others known)
  | inside renamed =>
    obtain ⟨proper, resolves, obeys⟩ := statements_renamable written each accepted renamed
    refine ⟨proper, fun new spare absent => ?_, obeys.part (List.Subset.refl _) fun k _ => .block⟩
    obtain ⟨body', within, same⟩ := resolves new (spare.cons rfl) absent
    refine ⟨.block body', .block within, rfl, ?_⟩
    rw [statement, same]
    rfl

theorem branch_renamable {condition : Expr} {thenBranch : Stmt} {elseBranch? : Option Stmt}
    (tested : condition.Written) (written : thenBranch.Written) (bare : thenBranch.declares = false)
    (written' : ∀ s ∈ elseBranch?, s.Written) (bare' : ∀ s ∈ elseBranch?, s.declares = false)
    (first : CanRename old thenBranch) (second : ∀ s ∈ elseBranch?, CanRename old s) :
    CanRename old (.branch condition thenBranch elseBranch?) := by
  intro context scopes rename accepted renames
  cases elseBranch? with
  | none =>
    obtain ⟨test, one⟩ := List.append_eq_nil_iff.mp accepted
    rw [statement] at renames
    cases renames with
    | thenBranch renamed =>
      obtain ⟨proper, resolves, obeys⟩ := first one renamed
      refine ⟨proper, fun new spare absent => ?_, obeys.part (List.subset_append_right _ _) ?_⟩
      · obtain ⟨_, out⟩ := not_or.mp (absent ∘ List.mem_append.mpr)
        obtain ⟨thenBranch', good, thin, same⟩ := resolves new spare out
        refine ⟨.branch condition thenBranch' none,
          .branch tested good (thin.trans bare) (by simp) (by simp), rfl, ?_⟩
        rw [statement, same]
        exact walked_eq rfl rfl (List.append_eq_nil_iff.mpr ⟨test, rfl⟩)
      · exact fun k absent obeys =>
          .branch (Marking.expression_unmarked absent.append.1) obeys (by simp)
  | some elseBranch =>
    obtain ⟨before, two⟩ := List.append_eq_nil_iff.mp accepted
    obtain ⟨test, one⟩ := List.append_eq_nil_iff.mp before
    rw [statement] at renames
    cases renames with
    | thenBranch renamed =>
      obtain ⟨proper, resolves, obeys⟩ := first one renamed
      refine ⟨proper, fun new spare absent => ?_, obeys.part ?_ ?_⟩
      · obtain ⟨out, _⟩ := not_or.mp (absent ∘ List.mem_append.mpr)
        obtain ⟨_, out⟩ := not_or.mp (out ∘ List.mem_append.mpr)
        obtain ⟨thenBranch', good, thin, same⟩ := resolves new spare out
        refine ⟨.branch condition thenBranch' (some elseBranch),
          .branch tested good (thin.trans bare) written' bare', rfl, ?_⟩
        rw [statement, same]
        exact walked_eq rfl rfl
          (List.append_eq_nil_iff.mpr ⟨List.append_eq_nil_iff.mpr ⟨test, rfl⟩, two⟩)
      · exact List.subset_append_of_subset_left _ (List.subset_append_right _ _)
      · intro k absent obeys
        obtain ⟨before, other⟩ := absent.append
        exact .branch (Marking.expression_unmarked before.append.1) obeys
          fun s here => Option.some.inj here ▸ Marking.statement_unmarked other
    | elseBranch renamed =>
      obtain ⟨proper, resolves, obeys⟩ := second elseBranch rfl two renamed
      refine ⟨proper, fun new spare absent => ?_, obeys.part (List.subset_append_right _ _) ?_⟩
      · obtain ⟨out, out₂⟩ := not_or.mp (absent ∘ List.mem_append.mpr)
        obtain ⟨_, out₁⟩ := not_or.mp (out ∘ List.mem_append.mpr)
        obtain ⟨elseBranch', good, thin, same⟩ :=
          resolves new (spare_after written spare out₁) out₂
        refine ⟨.branch condition thenBranch (some elseBranch'), .branch tested written bare
          (fun _ here => Option.some.inj here ▸ good)
          (fun _ here => Option.some.inj here ▸ thin.trans (bare' elseBranch rfl)), rfl, ?_⟩
        simp only [statement, same]
        exact walked_eq rfl rfl (List.append_eq_nil_iff.mpr ⟨before, rfl⟩)
      · intro k absent obeys
        obtain ⟨tested, first⟩ := absent.append.1.append
        exact .branch (Marking.expression_unmarked tested) (Marking.statement_unmarked first)
          fun s here => Option.some.inj here ▸ obeys

theorem loop_renamable {condition : Expr} {body : Stmt} (tested : condition.Written)
    (bare : body.declares = false) (repeated : CanRename old body) :
    CanRename old (.loop condition body) := by
  intro context scopes rename accepted renames
  obtain ⟨test, one⟩ := List.append_eq_nil_iff.mp accepted
  rw [statement] at renames
  cases renames with
  | loop renamed =>
    obtain ⟨proper, resolves, obeys⟩ := repeated one renamed
    refine ⟨proper, fun new spare absent => ?_, obeys.part (List.subset_append_right _ _) ?_⟩
    · obtain ⟨_, out⟩ := not_or.mp (absent ∘ List.mem_append.mpr)
      obtain ⟨body', good, thin, same⟩ := resolves new spare out
      refine ⟨.loop condition body', .loop tested good (thin.trans bare), rfl, ?_⟩
      rw [statement, same]
      exact walked_eq rfl rfl (List.append_eq_nil_iff.mpr ⟨test, rfl⟩)
    · exact fun k absent obeys => .loop (Marking.expression_unmarked absent.append.1) obeys

theorem functionDecl_renamable {name : Token} {params : List Token} {body : List Stmt}
    (plain : name.Plain) (named : ∀ param ∈ params, param.Plain) (written : ∀ s ∈ body, s.Written)
    (each : ∀ s ∈ body, CanRename old s) : CanRename old (.functionDecl (.mk name params body)) := by
  intro context scopes rename accepted renames
  obtain ⟨fresh, inside⟩ := List.append_eq_nil_iff.mp accepted
  rw [statement] at renames
  cases renames with
  | function renamed =>
    obtain ⟨proper, resolves, obeys⟩ := function_renamable named written each inside renamed
    refine ⟨proper, fun new spare absent => ?_, obeys.part (List.Subset.refl _) ?_⟩
    · have own : name.lexeme ≠ new := fun same => absent (same ▸ List.mem_cons_self)
      obtain ⟨params', body', named', goods, same⟩ :=
        resolves new (spare.introduce own) absent
      exact ⟨.functionDecl (.mk name params' body'), .functionDecl plain named' goods, rfl,
        walked_eq (congrArg Stmt.functionDecl (congrArg Prod.fst same)) rfl
          (List.append_eq_nil_iff.mpr ⟨fresh, congrArg Prod.snd same⟩)⟩
    · intro k absent obeys
      have own : k.Allows false name.lexeme := absent.append.1.cons.1
      rw [← show _ = name from renamed.name k.mark] at own
      exact .functionDecl own own obeys

theorem classDecl_renamable {name : Token} {superclass? : Option Expr}
    {declared : List FunctionDecl} (plain : name.Plain)
    (above : ∀ e ∈ superclass?, ∃ parent : Token, parent.Plain ∧ e = .variable parent none)
    (named : ∀ method ∈ declared, ∀ param ∈ method.params, param.Plain)
    (written : ∀ method ∈ declared, ∀ s ∈ method.body, s.Written)
    (each : ∀ method ∈ declared, ∀ s ∈ method.body, CanRename old s) :
    CanRename old (.classDecl name superclass? declared) := by
  intro context scopes rename accepted renames
  cases superclass? with
  | none =>
    obtain ⟨fresh, inside⟩ := List.append_eq_nil_iff.mp accepted
    rw [statement] at renames
    cases renames with
    | method renamed =>
      obtain ⟨proper, resolves, obeys⟩ := methods_renamable named written each inside renamed
      refine ⟨proper, fun new spare absent => ?_, obeys.part (List.subset_append_right _ _) ?_⟩
      · obtain ⟨own, out⟩ := not_or.mp (absent ∘ List.mem_cons.mpr)
        obtain ⟨declared', named', goods, same⟩ :=
          resolves new ((spare.introduce (Ne.symm own)).classScopes false) out
        exact ⟨.classDecl name none declared', .classDecl plain (by simp) named' goods, rfl,
          walked_eq (congrArg (Stmt.classDecl name none) (congrArg Prod.fst same)) rfl
            (List.append_eq_nil_iff.mpr ⟨fresh, congrArg Prod.snd same⟩)⟩
      · exact fun k absent obeys => .classDecl absent.cons.1 absent.cons.1 (by simp) obeys
  | some superclass =>
    obtain ⟨parent, _, rfl⟩ := above superclass rfl
    obtain ⟨before, inside⟩ := List.append_eq_nil_iff.mp accepted
    rw [statement] at renames
    cases renames with
    | method renamed =>
      obtain ⟨proper, resolves, obeys⟩ := methods_renamable named written each inside renamed
      refine ⟨proper, fun new spare absent => ?_, obeys.part (List.subset_append_right _ _) ?_⟩
      · obtain ⟨own, out⟩ := not_or.mp (absent ∘ List.mem_cons.mpr)
        obtain ⟨_, out⟩ := not_or.mp (out ∘ List.mem_append.mpr)
        obtain ⟨declared', named', goods, same⟩ :=
          resolves new ((spare.introduce (Ne.symm own)).classScopes true) out
        exact ⟨.classDecl name (some (.variable parent none)) declared',
          .classDecl plain above named' goods, rfl,
          walked_eq (congrArg (Stmt.classDecl name _) (congrArg Prod.fst same)) rfl
            (List.append_eq_nil_iff.mpr ⟨before, congrArg Prod.snd same⟩)⟩
      · intro k absent obeys
        obtain ⟨before, _⟩ := absent.append
        exact .classDecl before.cons.1 before.cons.1
          (fun e here => Option.some.inj here ▸ Marking.expression_unmarked before.cons.2) obeys

theorem statement_renamable {s : Stmt} (written : s.Written) : CanRename old s := by
  induction written with
  | expression _ | print _ | varDecl _ _ | returns _ =>
    intro context scopes rename accepted renames
    rw [statement] at renames
    cases renames
  | block written each => exact block_renamable written each
  | branch tested written bare written' bare' first second =>
    exact branch_renamable tested written bare written' bare' first second
  | loop tested _ bare repeated => exact loop_renamable tested bare repeated
  | functionDecl plain named written each => exact functionDecl_renamable plain named written each
  | classDecl plain above named written each =>
    exact classDecl_renamable plain above named written each

end Resolve

end Lox
