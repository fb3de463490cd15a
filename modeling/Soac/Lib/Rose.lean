import Mathlib.Data.List.Nodup

/-!
# Trees numbered in preorder

A tree with any number of children, the walk that visits a node before its children and knows what encloses it, and the
numbering of the nodes in that order.
-/

namespace Soac

open List

/-- A tree. -/
inductive Rose (α : Type) where
  | node (label : α) (children : List (Rose α))

namespace Rose

variable {α : Type}

def label : Rose α → α
  | node a _ => a

def children : Rose α → List (Rose α)
  | node _ ts => ts

mutual

/-- The number of nodes. -/
def size : Rose α → Nat
  | node _ ts => 1 + sizeList ts

def sizeList : List (Rose α) → Nat
  | [] => 0
  | t :: ts => t.size + sizeList ts

end

mutual

/-- The nodes in preorder, each as the tree below it, with the labels that enclose it, the nearest first. -/
def walk (outer : List α) : Rose α → List (Rose α × List α)
  | node a ts => (node a ts, outer) :: walkList (a :: outer) ts

def walkList (outer : List α) : List (Rose α) → List (Rose α × List α)
  | [] => []
  | t :: ts => t.walk outer ++ walkList outer ts

end

mutual

/-- The labels in preorder. -/
def labels : Rose α → List α
  | node i ts => i :: labelsList ts

def labelsList : List (Rose α) → List α
  | [] => []
  | t :: ts => t.labels ++ labelsList ts

end

mutual

def map {β : Type} (f : α → β) : Rose α → Rose β
  | node a ts => node (f a) (mapList f ts)

def mapList {β : Type} (f : α → β) : List (Rose α) → List (Rose β)
  | [] => []
  | t :: ts => t.map f :: mapList f ts

end

@[simp] theorem label_map {β : Type} (f : α → β) (t : Rose α) : (t.map f).label = f t.label := by
  cases t
  rfl

@[simp] theorem children_map {β : Type} (f : α → β) (t : Rose α) : (t.map f).children = mapList f t.children := by
  cases t
  rfl

mutual

theorem walk_map {β : Type} (f : α → β) (outer : List α) (t : Rose α) :
    (t.map f).walk (outer.map f) = (t.walk outer).map fun p => (p.1.map f, p.2.map f) := by
  cases t with
  | node a ts =>
    rw [map, walk, walk, map_cons, ← map_cons, walkList_map f (a :: outer) ts]
    rfl

theorem walkList_map {β : Type} (f : α → β) (outer : List α) (ts : List (Rose α)) :
    walkList (outer.map f) (mapList f ts) = (walkList outer ts).map fun p => (p.1.map f, p.2.map f) := by
  cases ts with
  | nil => rfl
  | cons t ts => rw [mapList, walkList, walk_map f outer t, walkList_map f outer ts, ← map_append, ← walkList]

end

mutual

theorem labels_walk (outer : List α) (t : Rose α) : (t.walk outer).map (fun p => p.1.label) = t.labels := by
  cases t with
  | node a ts =>
    rw [walk, map_cons, labelsList_walk (a :: outer) ts]
    rfl

theorem labelsList_walk (outer : List α) (ts : List (Rose α)) :
    (walkList outer ts).map (fun p => p.1.label) = labelsList ts := by
  cases ts with
  | nil => rfl
  | cons t ts => rw [walkList, map_append, labels_walk outer t, labelsList_walk outer ts, labelsList]

end

mutual

theorem labels_map {β : Type} (f : α → β) (t : Rose α) : (t.map f).labels = t.labels.map f := by
  cases t with
  | node a ts => rw [map, labels, labels, labelsList_map f ts, map_cons]

theorem labelsList_map {β : Type} (f : α → β) (ts : List (Rose α)) : labelsList (mapList f ts) = (labelsList ts).map f := by
  cases ts with
  | nil => rfl
  | cons t ts => rw [mapList, labelsList, labelsList, labels_map f t, labelsList_map f ts, map_append]

end

mutual

/-- Every label with its number, counted from `k` in preorder. -/
def number (k : Nat) : Rose α → Rose (Nat × α)
  | node a ts => node (k, a) (numberList (k + 1) ts)

def numberList (k : Nat) : List (Rose α) → List (Rose (Nat × α))
  | [] => []
  | t :: ts => t.number k :: numberList (k + t.size) ts

end

mutual

/-- The numbers of a numbered tree are consecutive. -/
theorem labels_number (k : Nat) (t : Rose α) : ((t.number k).map Prod.fst).labels = List.range' k t.size := by
  cases t with
  | node a ts =>
    rw [number, map, labels, labelsList_number (k + 1) ts, size, Nat.add_comm 1, List.range'_succ]

theorem labelsList_number (k : Nat) (ts : List (Rose α)) :
    labelsList (mapList Prod.fst (numberList k ts)) = List.range' k (sizeList ts) := by
  cases ts with
  | nil => rfl
  | cons t ts =>
    rw [numberList, mapList, labelsList, labels_number k t, labelsList_number (k + t.size) ts, sizeList]
    exact List.range'_append_1

end

mutual

theorem map_snd_number (k : Nat) (t : Rose α) : (t.number k).map Prod.snd = t := by
  cases t with
  | node a ts => rw [number, map, mapList_snd_number (k + 1) ts]

theorem mapList_snd_number (k : Nat) (ts : List (Rose α)) : mapList Prod.snd (numberList k ts) = ts := by
  cases ts with
  | nil => rfl
  | cons t ts => rw [numberList, mapList, map_snd_number k t, mapList_snd_number (k + t.size) ts]

end

mutual

/-- What stands below a node of a walk is part of the walk. -/
theorem walkList_children_subset {outer : List α} (t : Rose α) {p : Rose α × List α} (hp : p ∈ t.walk outer) :
    ∀ q ∈ walkList (p.1.label :: p.2) p.1.children, q ∈ t.walk outer := by
  cases t with
  | node a ts =>
    intro q hq
    rw [walk, mem_cons] at hp ⊢
    rcases hp with rfl | hp
    · exact .inr hq
    · exact .inr (walkList_children_subset_list ts hp q hq)

theorem walkList_children_subset_list {outer : List α} (ts : List (Rose α)) {p : Rose α × List α}
    (hp : p ∈ walkList outer ts) : ∀ q ∈ walkList (p.1.label :: p.2) p.1.children, q ∈ walkList outer ts := by
  cases ts with
  | nil => cases hp
  | cons t ts =>
    intro q hq
    rw [walkList, mem_append] at hp ⊢
    rcases hp with hp | hp
    · exact .inl (walkList_children_subset t hp q hq)
    · exact .inr (walkList_children_subset_list ts hp q hq)

end

mutual

/-- What encloses a node of a walk: nodes of the tree, then what encloses the tree. -/
theorem outer_of_mem_walk {outer : List α} (t : Rose α) {p : Rose α × List α} (hp : p ∈ t.walk outer) :
    ∃ inner, p.2 = inner ++ outer ∧ ∀ a ∈ inner, a ∈ t.labels := by
  cases t with
  | node a ts =>
    rw [walk, mem_cons] at hp
    rcases hp with rfl | hp
    · exact ⟨[], rfl, nofun⟩
    · obtain ⟨inner, houter, hinner⟩ := outer_of_mem_walkList ts hp
      refine ⟨inner ++ [a], by rw [houter, append_assoc, singleton_append], ?_⟩
      exact forall_mem_append.mpr ⟨fun b hb => mem_cons_of_mem _ (hinner b hb), forall_mem_singleton.mpr mem_cons_self⟩

theorem outer_of_mem_walkList {outer : List α} (ts : List (Rose α)) {p : Rose α × List α} (hp : p ∈ walkList outer ts) :
    ∃ inner, p.2 = inner ++ outer ∧ ∀ a ∈ inner, a ∈ labelsList ts := by
  cases ts with
  | nil => cases hp
  | cons t ts =>
    rw [walkList, mem_append] at hp
    rcases hp with hp | hp
    · obtain ⟨inner, houter, hinner⟩ := outer_of_mem_walk t hp
      exact ⟨inner, houter, fun a ha => mem_append_left _ (hinner a ha)⟩
    · obtain ⟨inner, houter, hinner⟩ := outer_of_mem_walkList ts hp
      exact ⟨inner, houter, fun a ha => mem_append_right _ (hinner a ha)⟩

end

end Rose

end Soac
