import Mathlib.Data.List.Infix
import Mathlib.Logic.Relation

/-!
# Walking in a tree

A tree whose nodes know their parent and find a child by its name.  A walk goes down
by names and up to the parent; where there is no parent it stays.  The place where a
walk ends can be read off from the names and the steps up alone, and whether it is
below another node can be read off from the two places.
-/

namespace NamedTree

open List Option

variable {N A : Type*}

/-- Nodes with a child for some of the names, and perhaps a parent. -/
structure Tree (N A : Type*) where
  child : N → A → Option N
  parent : N → Option N

/-- One step of a walk. -/
inductive Move (A : Type*)
  | stay
  | up
  | down (a : A)

namespace Tree

variable (t : Tree N A)

def move (n : N) : Move A → Option N
  | .stay => some n
  | .up => some ((t.parent n).getD n)
  | .down a => t.child n a

/-- A walk from a node. -/
def roam (n : N) : List (Move A) → Option N
  | [] => some n
  | m :: ms => (t.move n m).bind fun n' => roam n' ms

/-- The node at a place. -/
def nodeAt (root : N) (p : List A) : Option N := t.roam root (p.map .down)

/-- Each child has one parent and one name, and the root has no parent. -/
structure Sound (root : N) : Prop where
  parent : ∀ {n a c}, t.child n a = some c → t.parent c = some n
  label : ∀ {n a b c}, t.child n a = some c → t.child n b = some c → a = b
  root : t.parent root = none

/-- `n` is `top` or below it. -/
def Descends (top n : N) : Prop := Relation.ReflTransGen (fun c d => t.parent c = some d) n top

end Tree

/-- The place after a step. -/
def place (p : List A) : Move A → List A
  | .stay => p
  | .up => p.dropLast
  | .down a => p ++ [a]

/-- The place after a walk. -/
def places (p : List A) (ms : List (Move A)) : List A := ms.foldl place p

variable {t : Tree N A} {root n m : N} {p q : List A}

theorem places_append (p : List A) (ms ms' : List (Move A)) :
    places p (ms ++ ms') = places (places p ms) ms' := foldl_append

theorem places_down (p q : List A) : places p (q.map .down) = p ++ q := by
  induction q generalizing p with
  | nil => exact (append_nil p).symm
  | cons a q ih =>
    refine (ih (p ++ [a])).trans ?_
    rw [append_assoc, singleton_append]

theorem roam_append (n : N) (ms ms' : List (Move A)) :
    t.roam n (ms ++ ms') = (t.roam n ms).bind fun n' => t.roam n' ms' := by
  induction ms generalizing n with
  | nil => rfl
  | cons m ms ih =>
    rw [cons_append, Tree.roam, Tree.roam]
    cases t.move n m with
    | none => rfl
    | some n' => exact ih n'

@[simp] theorem nodeAt_nil : t.nodeAt root [] = some root := rfl

theorem nodeAt_snoc (p : List A) (a : A) :
    t.nodeAt root (p ++ [a]) = (t.nodeAt root p).bind fun n => t.child n a := by
  rw [Tree.nodeAt, map_append, roam_append]
  congr 1
  funext n
  rw [map_singleton, Tree.roam, Tree.move]
  cases t.child n a <;> rfl

/-- The last step to a place. -/
theorem nodeAt_snoc_some {a : A} (h : t.nodeAt root (p ++ [a]) = some n) :
    ∃ d, t.nodeAt root p = some d ∧ t.child d a = some n := by
  rw [nodeAt_snoc] at h
  exact bind_eq_some_iff.mp h

/-- **The place where a walk ends.** -/
theorem nodeAt_roam (h : t.Sound root) {ms : List (Move A)} (hn : t.nodeAt root p = some n)
    (hm : t.roam n ms = some m) : t.nodeAt root (places p ms) = some m := by
  induction ms generalizing n p with
  | nil =>
    rw [← some.inj hm]
    exact hn
  | cons mv ms ih =>
    obtain ⟨n', hmove, hrest⟩ := bind_eq_some_iff.mp hm
    refine ih ?_ hrest
    cases mv with
    | stay =>
      rw [← some.inj hmove]
      exact hn
    | down a =>
      rw [place, nodeAt_snoc, hn]
      exact hmove
    | up =>
      rw [← some.inj hmove, place]
      cases hp : p using List.reverseRecOn with
      | nil =>
        rw [hp] at hn
        obtain rfl : root = n := some.inj hn
        rw [h.root]
        rfl
      | append_singleton p a =>
        rw [hp] at hn
        obtain ⟨d, hd, hchild⟩ := nodeAt_snoc_some hn
        rw [dropLast_concat, h.parent hchild, hd]
        rfl

section

variable (h : t.Sound root) (hp : t.nodeAt root p = some n)
include h hp

/-- **A node is at one place only.** -/
theorem nodeAt_inj (hq : t.nodeAt root q = some n) : p = q := by
  induction p using List.reverseRecOn generalizing q n with
  | nil =>
    obtain rfl : root = n := some.inj hp
    cases q using List.reverseRecOn with
    | nil => rfl
    | append_singleton q b =>
      obtain ⟨d, -, hchild⟩ := nodeAt_snoc_some hq
      cases h.root.symm.trans (h.parent hchild)
  | append_singleton p a ih =>
    obtain ⟨d, hd, hchild⟩ := nodeAt_snoc_some hp
    cases q using List.reverseRecOn with
    | nil =>
      obtain rfl : root = n := some.inj hq
      cases h.root.symm.trans (h.parent hchild)
    | append_singleton q b =>
      obtain ⟨e, he, hchild'⟩ := nodeAt_snoc_some hq
      obtain rfl : d = e := some.inj ((h.parent hchild).symm.trans (h.parent hchild'))
      rw [ih hd he, h.label hchild hchild']

theorem descends_nodeAt_append {r : List A} (hr : t.nodeAt root (p ++ r) = some m) :
    t.Descends n m := by
  induction r using List.reverseRecOn generalizing m with
  | nil =>
    rw [append_nil] at hr
    rw [← some.inj (hp.symm.trans hr)]
    exact Relation.ReflTransGen.refl
  | append_singleton r a ih =>
    rw [← append_assoc] at hr
    obtain ⟨d, hd, hchild⟩ := nodeAt_snoc_some hr
    exact Relation.ReflTransGen.head (h.parent hchild) (ih hd)

/-- **Being below another node** can be read off from the places. -/
theorem descends_iff_places (hq : t.nodeAt root q = some m) : t.Descends n m ↔ p <+: q := by
  constructor
  · intro hdesc
    induction hdesc using Relation.ReflTransGen.head_induction_on generalizing q with
    | refl =>
      rw [nodeAt_inj h hp hq]
    | head hparent _ ih =>
      cases q using List.reverseRecOn with
      | nil =>
        rw [nodeAt_nil, some.injEq] at hq
        rw [← hq, h.root] at hparent
        cases hparent
      | append_singleton q a =>
        obtain ⟨d, hd, hchild⟩ := nodeAt_snoc_some hq
        obtain rfl := some.inj (hparent.symm.trans (h.parent hchild))
        exact (ih hd).trans (prefix_append q [a])
  · rintro ⟨r, rfl⟩
    exact descends_nodeAt_append h hp hq

end

/-- **Only one node without a parent** is above a node. -/
theorem descends_top_unique (hroot : t.parent root = none) (hm : t.parent m = none)
    (h : t.Descends root n) (h' : t.Descends m n) : root = m := by
  have hunique : Relator.RightUnique fun c d => t.parent c = some d :=
    fun c d e hd he => some.inj (hd.symm.trans he)
  have htop : ∀ {a b : N}, t.parent a = none → Relation.ReflTransGen
      (fun c d => t.parent c = some d) a b → a = b := by
    intro a b ha hab
    rcases Relation.ReflTransGen.cases_head hab with hab | ⟨c, hc, -⟩
    · exact hab
    · cases ha.symm.trans hc
  rcases Relation.ReflTransGen.total_of_right_unique hunique h h' with hab | hba
  · exact htop hroot hab
  · exact (htop hm hba).symm

end NamedTree
