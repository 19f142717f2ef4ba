import Mathlib.Data.List.Forall2

/-!
# Items at indices and in blocks

Rules and sequences are known by the index at which they stand.  What is told apart has one index only,
and a list with a changed item is seen as before wherever the item looks the same.  A pass makes a block
of new items from each item, and blocks of blocks are blocks again.  A state that is worked on by one
item after the other forgets what an item sets anew.
-/

namespace TracedGrammar

variable {α β : Type} {items : List α} {index : Nat}

/-- Items that are not related in either order cannot stand at different indices. -/
theorem index_eq_of_pairwise {related : α → α → Prop} (pairwise : items.Pairwise related)
    {left right : Nat} {first second : α} (atLeft : items[left]? = some first)
    (atRight : items[right]? = some second)
    (apart : ¬related first second ∧ ¬related second first) : left = right := by
  obtain ⟨leftBound, rfl⟩ := List.getElem?_eq_some_iff.mp atLeft
  obtain ⟨rightBound, rfl⟩ := List.getElem?_eq_some_iff.mp atRight
  have inOrder := List.pairwise_iff_getElem.mp pairwise
  rcases Nat.lt_trichotomy left right with before | same | after
  · exact absurd (inOrder left right leftBound rightBound before) apart.1
  · exact same
  · exact absurd (inOrder right left rightBound leftBound after) apart.2

section Set

theorem set_of_getElem? {item : α} (found : items[index]? = some item) :
    items.set index item = items := by
  obtain ⟨bound, rfl⟩ := List.getElem?_eq_some_iff.mp found
  exact List.set_getElem_self bound

/-- Two changes at different indices with one result change nothing. -/
theorem set_eq_self_of_set_eq_set {left right : Nat} {first second : α}
    (same : items.set left first = items.set right second) (apart : left ≠ right) :
    items.set left first = items := by
  apply List.ext_getElem?
  intro index
  by_cases here : index = left
  · rw [same, List.getElem?_set_ne (here ▸ apart.symm)]
  · rw [List.getElem?_set_ne (Ne.symm here)]

/-- A view of a list does not show that an item was replaced by one that looks the same. -/
theorem map_set_of_eq {view : α → β} {old new : α} (found : items[index]? = some old)
    (same : view new = view old) : (items.set index new).map view = items.map view := by
  have here : (items.map view)[index]? = some (view old) := by rw [List.getElem?_map, found]; rfl
  rw [List.map_set, same, set_of_getElem? here]

end Set

section Each

variable {holds : List α → α → Prop}

/-- Something holds of every item of a list and the items before it. -/
def AtEach (holds : List α → α → Prop) (items : List α) : Prop :=
  ∀ before item after, items = before ++ item :: after → holds before item

theorem atEach_nil : AtEach holds [] := by
  intro before item after same
  simp at same

theorem atEach_concat {last : α} :
    AtEach holds (items ++ [last]) ↔ AtEach holds items ∧ holds items last := by
  constructor
  · intro each
    refine ⟨fun before item after same => ?_, each items last [] rfl⟩
    exact each before item (after ++ [last]) (by rw [same, List.append_assoc, List.cons_append])
  · rintro ⟨each, atLast⟩ before item after same
    rcases List.eq_nil_or_concat' after with rfl | ⟨rest, final, rfl⟩
    · obtain ⟨rfl, here⟩ := List.append_inj' same rfl
      exact List.singleton_inj.mp here ▸ atLast
    · rw [← List.cons_append, ← List.append_assoc] at same
      exact each before item rest (List.append_inj' same rfl).1

end Each

/-- When items set a field of a state, or leave it as it is, the last one that sets it decides. -/
theorem foldl_field {σ : Type} {step : σ → α → σ} {field : σ → β} {update : α → Option β}
    (updates : ∀ state item, field (step state item) = (update item).getD (field state))
    (state : σ) (items : List α) : field (items.foldl step state) =
      (items.filterMap update).getLast?.getD (field state) := by
  induction items generalizing state with
  | nil => rfl
  | cons item items induction =>
      rw [List.foldl_cons, induction, updates, List.filterMap_cons]
      cases update item with
      | none => rfl
      | some value => rw [List.getLast?_cons, Option.getD_some, Option.getD_some]

theorem getD_eq_default_iff {given : Option α} {default : α} :
    given.getD default = default ↔ ∀ value, given = some value → value = default := by
  cases given with
  | none => simp only [Option.getD_none, reduceCtorEq, false_implies, implies_true]
  | some value => simp only [Option.getD_some, Option.some.injEq, forall_eq']

theorem getD_getLast?_eq_iff {first second : α} :
    items.getLast?.getD first = items.getLast?.getD second ↔ (items = [] → first = second) := by
  rw [← List.getLast?_eq_none_iff]
  cases items.getLast? with
  | none => simp only [Option.getD_none, true_implies]
  | some last => simp only [Option.getD_some, reduceCtorEq, false_implies]

theorem getLast?_filterMap_eq_some_iff {update : α → Option β} {value : β} :
    (items.filterMap update).getLast? = some value ↔
      ∃ before item after, items = before ++ item :: after ∧ update item = some value ∧
        ∀ later ∈ after, update later = none := by
  simp only [List.getLast?_eq_some_iff, List.filterMap_eq_append_iff, List.filterMap_eq_cons_iff,
    List.filterMap_eq_nil_iff]
  constructor
  · rintro ⟨_, early, late, rfl, rfl, skipped, item, after, rfl, none, sets, later⟩
    exact ⟨early ++ skipped, item, after, (List.append_assoc ..).symm, sets, later⟩
  · rintro ⟨before, item, after, rfl, sets, later⟩
    exact ⟨_, before, item :: after, rfl, rfl, [], item, after, rfl, List.forall_mem_nil _, sets, later⟩

section Owners

variable {related : α → β → Prop} {owners : List β} (all : List.Forall₂ related items owners)
include all

/-- An item may be replaced by one that is in relation to everything that the old one is. -/
theorem forall₂_set {old new : α} (found : items[index]? = some old)
    (kept : ∀ owner, related old owner → related new owner) :
    List.Forall₂ related (items.set index new) owners := by
  induction all generalizing index with
  | nil => exact .nil
  | cons first rest induction =>
      cases index with
      | zero =>
          cases found
          exact .cons (kept _ first) rest
      | succ index => exact .cons first (induction found)

theorem forall₂_imp_of_mem {made : α → β → Prop}
    (more : ∀ item ∈ items, ∀ owner ∈ owners, related item owner → made item owner) :
    List.Forall₂ made items owners := by
  induction all with
  | nil => exact .nil
  | cons head _ induction =>
      refine .cons (more _ List.mem_cons_self _ List.mem_cons_self head) (induction ?_)
      intro item inItems owner inOwners
      exact more item (List.mem_cons_of_mem _ inItems) owner (List.mem_cons_of_mem _ inOwners)

theorem exists_getElem?_of_forall₂ {item : α} (found : items[index]? = some item) :
    ∃ owner, owners[index]? = some owner ∧ related item owner := by
  obtain ⟨bound, rfl⟩ := List.getElem?_eq_some_iff.mp found
  obtain ⟨length, related⟩ := List.forall₂_iff_get.mp all
  have inOwners : index < owners.length := length ▸ bound
  exact ⟨owners[index], List.getElem?_eq_getElem inOwners, related index bound inOwners⟩

end Owners

section Blocks

variable {γ : Type} {related : α → β → Prop} {more : List α} {others : List β}

/-- A list has, in place of each item of another, a block of things in relation to the item. -/
inductive Blockwise (related : α → β → Prop) : List α → List β → Prop
  | nil : Blockwise related [] []
  | cons {item : α} {block : List β} {items : List α} {others : List β}
      (made : ∀ other ∈ block, related item other) (later : Blockwise related items others) :
      Blockwise related (item :: items) (block ++ others)

namespace Blockwise

theorem of_forall₂ {blocks : List (List β)}
    (makes : List.Forall₂ (fun item block => ∀ other ∈ block, related item other) items blocks) :
    Blockwise related items blocks.flatten := by
  induction makes with
  | nil => exact .nil
  | cons made _ induction => exact .cons made induction

theorem map_flatMap {sources : List γ} {itemOf : γ → α} {blockOf : γ → List β}
    (made : ∀ source ∈ sources, ∀ other ∈ blockOf source, related (itemOf source) other) :
    Blockwise related (sources.map itemOf) (sources.flatMap blockOf) := by
  rw [List.flatMap_def]
  apply of_forall₂
  rw [List.forall₂_map_left_iff, List.forall₂_map_right_iff, List.forall₂_same]
  exact made

theorem map_right {image : α → β} (made : ∀ item, related item (image item)) (items : List α) :
    Blockwise related items (items.map image) := by
  induction items with
  | nil => exact .nil
  | cons item items induction =>
      change Blockwise related (item :: items) ([image item] ++ items.map image)
      exact .cons (List.forall_mem_singleton.mpr (made item)) induction

theorem refl {related : α → α → Prop} (reflexive : ∀ item, related item item) (items : List α) :
    Blockwise related items items := by
  simpa using map_right reflexive items

theorem append (first : Blockwise related items others) {rest : List β}
    (second : Blockwise related more rest) : Blockwise related (items ++ more) (others ++ rest) := by
  induction first with
  | nil => exact second
  | cons made _ induction =>
      rw [List.append_assoc]
      exact .cons made induction

theorem map {further : γ → γ → Prop} {former : α → γ} {latter : β → γ}
    (all : Blockwise (fun item other => further (former item) (latter other)) items others) :
    Blockwise further (items.map former) (others.map latter) := by
  induction all with
  | nil => exact .nil
  | cons made _ induction =>
      rw [List.map_cons, List.map_append]
      exact .cons (List.forall_mem_map.mpr made) induction

theorem exists_append (all : Blockwise related (items ++ more) others) :
    ∃ former latter, others = former ++ latter ∧ Blockwise related items former ∧
      Blockwise related more latter := by
  induction items generalizing others with
  | nil => exact ⟨[], others, rfl, .nil, all⟩
  | cons item items induction =>
      cases all with
      | @cons _ block _ rest made later =>
          obtain ⟨former, latter, rfl, here, there⟩ := induction later
          exact ⟨block ++ former, latter, (List.append_assoc ..).symm, .cons made here, there⟩

theorem exists_item (all : Blockwise related items others) {other : β} (member : other ∈ others) :
    ∃ item ∈ items, related item other := by
  induction all with
  | nil => cases member
  | @cons item _ _ _ made _ induction =>
      rcases List.mem_append.mp member with here | later
      · exact ⟨item, List.mem_cons_self, made other here⟩
      · obtain ⟨owner, inItems, owns⟩ := induction later
        exact ⟨owner, List.mem_cons_of_mem _ inItems, owns⟩

/-- Blocks of blocks are blocks. -/
theorem trans (first : Blockwise related items others) {further : β → γ → Prop}
    {composed : α → γ → Prop} {last : List γ} (second : Blockwise further others last)
    (compose : ∀ {item other new}, related item other → further other new → composed item new) :
    Blockwise composed items last := by
  induction first generalizing last with
  | nil =>
      cases second
      exact .nil
  | cons made _ induction =>
      obtain ⟨former, latter, rfl, here, there⟩ := second.exists_append
      refine .cons (fun new member => ?_) (induction there)
      obtain ⟨other, inBlock, becomes⟩ := here.exists_item member
      exact compose (made other inBlock) becomes

end Blockwise

end Blocks

end TracedGrammar
