import Lox.Proofs.Syntax.Phrases

namespace Lox

def Heads (good : TokenKind → Prop) (K : Language TokenKind) : Prop :=
  ∀ kind w, kind :: w ∈ K → good kind

theorem Phrase.heads_mul {p : Phrase} {good : TokenKind → Prop} {K : Language TokenKind}
    (inside : ∀ kind ∈ p.starts, good kind) (after : p.nullable = true → Heads good K) :
    Heads good (p.language * K) := by
  intro kind w member
  rcases start_of_mem member with starts | ⟨null, later⟩
  · exact inside kind starts
  · exact after null kind w later

/-- A phrase that is not nothing hides what comes after it. -/
theorem Phrase.heads {p : Phrase} {good : TokenKind → Prop} {allowed : Language TokenKind → Prop}
    (inside : ∀ kind ∈ p.starts, good kind) (never : p.nullable = false) :
    ∀ K, allowed K → Heads good (p.language * K) := by
  refine fun K _ => heads_mul inside fun null => ?_
  rw [never] at null
  cases null

/-- The tokens are a whole phrase, and with `next` after them they are no part of a longer one. -/
structure Passed (allowed : Language TokenKind → Prop) (p : Phrase) (ts : List TokenKind)
    (next : TokenKind) : Prop where
  mem : ts ∈ p.language
  only : ∀ K, allowed K → ∀ w, ts ++ next :: w ∈ p.language * K → next :: w ∈ K

/-- The tokens begin a phrase, but not with `next` after them. -/
structure Stuck (allowed : Language TokenKind → Prop) (p : Phrase) (ts : List TokenKind)
    (next : TokenKind) : Prop where
  viable : ∃ w, ts ++ w ∈ p.language
  never : ∀ K, allowed K → ∀ w, ts ++ next :: w ∉ p.language * K

/-- What starts with `kind` and is the phrase `q` is also the phrase `p`. -/
structure Narrows (allowed : Language TokenKind → Prop) (kind : TokenKind) (p q : Phrase) :
    Prop where
  sub : ∀ w ∈ p.language, w ∈ q.language
  only : ∀ K, allowed K → ∀ w, kind :: w ∈ q.language * K → kind :: w ∈ p.language * K

variable {allowed before : Language TokenKind → Prop} {p q r : Phrase} {ts us : List TokenKind}
  {kind next after : TokenKind}

/-- The first of some tokens and the next one comes first in whatever goes on from there. -/
theorem exists_cons_of_head (here : (ts ++ [next]).head? = some kind) (w : List TokenKind) :
    ∃ v, ts ++ next :: w = kind :: v := by
  cases ts with
  | nil =>
    cases here
    exact ⟨w, rfl⟩
  | cons first rest =>
    cases here
    exact ⟨rest ++ next :: w, rfl⟩

theorem Phrase.not_mem_mul (other : kind ∉ p.starts) (never : p.nullable = false)
    (K : Language TokenKind) (w : List TokenKind) : kind :: w ∉ p.language * K := by
  intro member
  rcases start_of_mem member with starts | ⟨null, -⟩
  · exact other starts
  · rw [never] at null
    cases null

theorem Phrase.not_mem_token_mul {first : TokenKind} (other : kind ≠ first)
    (K : Language TokenKind) (w : List TokenKind) : kind :: w ∉ (token first).language * K :=
  not_mem_mul (fun member => other (List.mem_singleton.mp member)) rfl K w

/-- The first token of a phrase has been read. -/
theorem Phrase.mem_of_cons_mem {K : Language TokenKind} {w : List TokenKind}
    (member : kind :: w ∈ (Phrase.seq (token kind) p).language * K) : w ∈ p.language * K := by
  rw [language_seq, mul_assoc] at member
  obtain ⟨v, derives, w', later, whole⟩ := Language.mem_mul.mp member
  cases derives
  cases whole
  exact later

/-- Nothing at all is left to what comes after. -/
theorem Phrase.mem_empty_mul {K : Language TokenKind} {w : List TokenKind} :
    w ∈ Phrase.empty.language * K ↔ w ∈ K := by
  rw [language_empty, one_mul]

theorem Passed.mono (passed : Passed before p ts next) (fewer : ∀ K, allowed K → before K) :
    Passed allowed p ts next :=
  ⟨passed.mem, fun K may => passed.only K (fewer K may)⟩

theorem Stuck.mono (stuck : Stuck before p ts next) (fewer : ∀ K, allowed K → before K) :
    Stuck allowed p ts next :=
  ⟨stuck.viable, fun K may => stuck.never K (fewer K may)⟩

theorem Passed.seq (first : Passed before p ts next) (second : Passed allowed q us after)
    (here : (us ++ [after]).head? = some next)
    (inner : ∀ K, allowed K → before (q.language * K)) :
    Passed allowed (.seq p q) (ts ++ us) after := by
  refine ⟨.seq first.mem second.mem, fun K may w member => ?_⟩
  obtain ⟨v, same⟩ := exists_cons_of_head here w
  rw [Phrase.language_seq, mul_assoc, List.append_assoc, same] at member
  have later := first.only _ (inner K may) v member
  rw [← same] at later
  exact second.only K may w later

theorem Passed.stuck (first : Passed before p ts next) (second : Stuck allowed q us after)
    (here : (us ++ [after]).head? = some next)
    (inner : ∀ K, allowed K → before (q.language * K)) :
    Stuck allowed (.seq p q) (ts ++ us) after := by
  obtain ⟨w, viable⟩ := second.viable
  refine ⟨⟨w, List.append_assoc ts us w ▸ .seq first.mem viable⟩, fun K may w member => ?_⟩
  obtain ⟨v, same⟩ := exists_cons_of_head here w
  rw [Phrase.language_seq, mul_assoc, List.append_assoc, same] at member
  have later := first.only _ (inner K may) v member
  rw [← same] at later
  exact second.never K may w later

theorem Stuck.seq (first : Stuck before p ts next) (some : ∃ w, w ∈ q.language)
    (inner : ∀ K, allowed K → before (q.language * K)) : Stuck allowed (.seq p q) ts next := by
  obtain ⟨v, viable⟩ := first.viable
  obtain ⟨w, more⟩ := some
  refine ⟨⟨v ++ w, List.append_assoc ts v w ▸ .seq viable more⟩, fun K may w member => ?_⟩
  rw [Phrase.language_seq, mul_assoc] at member
  exact first.never _ (inner K may) w member

theorem Passed.narrow (passed : Passed allowed p ts next) (narrows : Narrows allowed kind p q)
    (here : (ts ++ [next]).head? = some kind) : Passed allowed q ts next := by
  refine ⟨narrows.sub ts passed.mem, fun K may w member => ?_⟩
  obtain ⟨v, same⟩ := exists_cons_of_head here w
  rw [same] at member
  exact passed.only K may w (same ▸ narrows.only K may v member)

theorem Stuck.narrow (stuck : Stuck allowed p ts next) (narrows : Narrows allowed kind p q)
    (here : (ts ++ [next]).head? = some kind) : Stuck allowed q ts next := by
  obtain ⟨w, viable⟩ := stuck.viable
  refine ⟨⟨w, narrows.sub _ viable⟩, fun K may w member => ?_⟩
  obtain ⟨v, same⟩ := exists_cons_of_head here w
  rw [same] at member
  exact stuck.never K may w (same ▸ narrows.only K may v member)

theorem Narrows.of_eq (same : p.language = q.language) : Narrows allowed kind p q := by
  refine ⟨fun w member => same ▸ member, fun K _ w member => ?_⟩
  rwa [same]

theorem Narrows.rule (name : Rule) : Narrows allowed kind name.body (.rule name) :=
  .of_eq (Phrase.language_rule name).symm

theorem Narrows.trans (one : Narrows allowed kind p q) (two : Narrows allowed kind q r) :
    Narrows allowed kind p r :=
  ⟨fun w member => two.sub w (one.sub w member),
    fun K may w member => one.only K may w (two.only K may w member)⟩

theorem Narrows.left (other : ∀ K, allowed K → ∀ w, kind :: w ∉ q.language * K) :
    Narrows allowed kind p (.either p q) := by
  refine ⟨fun w member => .first member, fun K may w member => ?_⟩
  rw [Phrase.language_either, add_mul] at member
  exact ((Language.mem_add _ _ _).mp member).resolve_right (other K may w)

theorem Narrows.right (other : ∀ K, allowed K → ∀ w, kind :: w ∉ p.language * K) :
    Narrows allowed kind q (.either p q) := by
  refine ⟨fun w member => .second member, fun K may w member => ?_⟩
  rw [Phrase.language_either, add_mul] at member
  exact ((Language.mem_add _ _ _).mp member).resolve_left (other K may w)

theorem Narrows.skip (other : kind ∉ p.starts) (null : [] ∈ p.language) :
    Narrows allowed kind q (.seq p q) := by
  refine ⟨fun w member => .seq null member, fun K may w member => ?_⟩
  rw [Phrase.language_seq, mul_assoc] at member
  rcases Phrase.start_of_mem member with starts | ⟨-, later⟩
  · exact absurd starts other
  · exact later

theorem Narrows.more (other : ∀ K, allowed K → ∀ w, kind :: w ∉ K) :
    Narrows allowed kind (.seq p (.many p)) (.many p) := by
  have same : (Phrase.either .empty (.seq p (.many p))).language = (Phrase.many p).language := by
    rw [Phrase.language_either, Phrase.language_empty, Phrase.language_seq,
      ← Phrase.language_many]
  refine .trans (.right fun K may w member => ?_) (.of_eq same)
  exact other K may w (Phrase.mem_empty_mul.mp member)

theorem Narrows.seq (narrows : Narrows before kind p q)
    (inner : ∀ K, allowed K → before (r.language * K)) :
    Narrows allowed kind (.seq p r) (.seq q r) := by
  constructor
  · rintro w ⟨⟩
    exact .seq (narrows.sub _ ‹_›) ‹_›
  · intro K may w member
    rw [Phrase.language_seq, mul_assoc] at member ⊢
    exact narrows.only _ (inner K may) w member

/-- Of several phrases it must be the one that starts with the kind. -/
theorem Narrows.oneOf {ps : List Phrase} (member : p ∈ ps)
    (other : ∀ q ∈ ps, q = p ∨ kind ∉ q.starts ∧ q.nullable = false) :
    Narrows allowed kind p (Phrase.oneOf ps) := by
  refine ⟨fun w derives => (Phrase.mem_oneOf member).mpr ⟨p, member, derives⟩,
    fun K may w found => ?_⟩
  obtain ⟨v, derives, w', later, whole⟩ := Language.mem_mul.mp found
  obtain ⟨q, chosen, derives⟩ := (Phrase.mem_oneOf member).mp derives
  have found : kind :: w ∈ q.language * K := Language.mem_mul.mpr ⟨v, derives, w', later, whole⟩
  rcases other q chosen with rfl | ⟨starts, never⟩
  · exact found
  · exact absurd found (Phrase.not_mem_mul starts never K w)

theorem Passed.token {kinds : List TokenKind} (member : kind ∈ kinds) (next : TokenKind) :
    Passed allowed (.tokens kinds) [kind] next := by
  refine ⟨.token member, fun K may w found => ?_⟩
  obtain ⟨v, derives, w', later, whole⟩ := Language.mem_mul.mp found
  cases derives
  cases whole
  exact later

theorem Stuck.start (other : next ∉ p.starts) (never : p.nullable = false)
    (some : ∃ w, w ∈ p.language) : Stuck allowed p [] next :=
  ⟨some, fun K _ w => Phrase.not_mem_mul other never K w⟩

/-- Nothing stands for a phrase that may be nothing, if the next token does not start it. -/
theorem Passed.nothing (other : next ∉ p.starts) (null : [] ∈ p.language) :
    Passed allowed p [] next := by
  refine ⟨null, fun K may w member => ?_⟩
  rcases Phrase.start_of_mem member with starts | ⟨-, later⟩
  · exact absurd starts other
  · exact later

end Lox
