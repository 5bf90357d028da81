/-
Lapis.Lib.LinkQueue — families of intrusive doubly linked FIFO queues.

The elements carry their own links: each has one `next` and one `prev` pointer, whatever
queue it is in, and a queue is only a pair of ends. A family of such queues over one set of
elements therefore shares the two link functions, and the queues are lists exactly when the
links agree with a family of pairwise disjoint lists. `Holds` states that agreement; the
operations `pushBack`, `dropFront` and `unlink` (from any position) are the usual constant-time
pointer updates, and each has one lemma that says which family of lists it leaves.
-/
import Lapis.Lib.LinkList
import Lapis.Lib.Spine

namespace Lapis.Lib

open Function List

/-- The links of the elements and the two ends of every queue. -/
@[ext]
structure LinkQueues (ι α : Type) where
  next : α → Option α
  prev : α → Option α
  head : ι → Option α
  tail : ι → Option α

namespace LinkQueues

variable {ι α : Type}

/-! ## The lists a family holds -/

/-- The links spell `xs`: every element points to its neighbours in `xs`. -/
def Spells (q : LinkQueues ι α) (xs : List α) : Prop :=
  ∀ A x B, xs = A ++ x :: B → q.prev x = A.getLast? ∧ q.next x = B.head?

/-- No element occurs twice, in one list or in two. -/
structure Separate (L : ι → List α) : Prop where
  nodup : ∀ i, (L i).Nodup
  disjoint : ∀ i j x, x ∈ L i → x ∈ L j → i = j

/-- The family of queues is the family of lists `L`: ends and links agree with the lists, no
element occurs twice, and an element outside every list has null links. -/
structure Holds (q : LinkQueues ι α) (L : ι → List α) : Prop extends Separate L where
  head : ∀ i, q.head i = (L i).head?
  tail : ∀ i, q.tail i = (L i).getLast?
  spells : ∀ i, q.Spells (L i)
  loose : ∀ x, (∀ i, x ∉ L i) → q.next x = none ∧ q.prev x = none

/-- The elements met when following `next` from an end, for as long as they last. -/
def Walk (q : LinkQueues ι α) : Option α → List α → Prop
  | none, xs => xs = []
  | some _, [] => False
  | some x, y :: xs => x = y ∧ q.Walk (q.next x) xs

/-- `x` is linked in queue `i`: it is met when following `next` from the head. -/
def Linked (q : LinkQueues ι α) (i : ι) (x : α) : Prop :=
  ∃ xs, q.Walk (q.head i) xs ∧ x ∈ xs

variable {q : LinkQueues ι α} {L : ι → List α} {xs : List α} {i : ι} {x y : α}

theorem Walk.spine {e : Option α} (h : q.Walk e xs) : Spine q.next e xs := by
  induction xs generalizing e with
  | nil =>
    cases e with
    | none => rfl
    | some x => exact h.elim
  | cons x xs ih =>
    cases e with
    | none => simp [Walk] at h
    | some y =>
      obtain ⟨rfl, hrest⟩ := h
      exact ⟨rfl, ih hrest⟩

theorem Walk.unique {e : Option α} {ys : List α} (hx : q.Walk e xs) (hy : q.Walk e ys) : xs = ys :=
  hx.spine.unique hy.spine

/-- Walking from any element of a spelled list meets the rest of the list. -/
theorem Spells.walk (h : q.Spells xs) {A B : List α} (hxs : xs = A ++ B) : q.Walk B.head? B := by
  induction B generalizing A with
  | nil => rfl
  | cons b B ih =>
    have hb := h A b B hxs
    have hrest := ih (A := A ++ [b]) (by simpa using hxs)
    exact ⟨rfl, hb.2 ▸ hrest⟩

/-- A list stays spelled when the links of its elements do not change. -/
theorem Spells.congr {q' : LinkQueues ι α} (h : q.Spells xs)
    (hnext : ∀ x ∈ xs, q'.next x = q.next x) (hprev : ∀ x ∈ xs, q'.prev x = q.prev x) : q'.Spells xs := by
  intro A x B hsplit
  have hx : x ∈ xs := by rw [hsplit]; simp
  rw [hnext x hx, hprev x hx]
  exact h A x B hsplit

namespace Holds

theorem walk (h : q.Holds L) (i : ι) : q.Walk (q.head i) (L i) :=
  h.head i ▸ (h.spells i).walk (A := []) rfl

theorem linked_iff (h : q.Holds L) : q.Linked i x ↔ x ∈ L i := by
  constructor
  · rintro ⟨xs, hwalk, hx⟩
    exact hwalk.unique (h.walk i) ▸ hx
  · intro hx
    exact ⟨L i, h.walk i, hx⟩

theorem head_eq_none_iff (h : q.Holds L) : q.head i = none ↔ L i = [] := by
  rw [h.head, List.head?_eq_none_iff]

theorem head_eq_some_iff (h : q.Holds L) : q.head i = some x ↔ ∃ xs, L i = x :: xs := by
  rw [h.head, List.head?_eq_some_iff]

/-- The tail of a queue is one of its elements. -/
theorem mem_of_tail (h : q.Holds L) {l : α} (hl : q.tail i = some l) : l ∈ L i :=
  List.mem_of_getLast? (by rw [← h.tail i, hl])

/-- One queue of the family by itself. -/
theorem single (h : q.Holds L) (i : ι) : (⟨q.next, q.prev, q.head i⟩ : LinkList α).Holds (L i) :=
  ⟨h.head i, h.nodup i, h.spells i⟩

end Holds

/-! ## Lists with one element more or less -/

/-- The ways to split a list with one element appended. -/
theorem concat_eq_split {A B : List α} (h : xs ++ [y] = A ++ x :: B) :
    (B = [] ∧ x = y ∧ A = xs) ∨ ∃ B', B = B' ++ [y] ∧ xs = A ++ x :: B' := by
  rcases eq_nil_or_concat B with rfl | ⟨B', b, rfl⟩
  · left
    obtain ⟨hxs, hy⟩ := append_inj' h rfl
    simp_all
  · right
    have h' : xs ++ [y] = (A ++ x :: B') ++ [b] := by simpa using h
    obtain ⟨hxs, hy⟩ := append_inj' h' rfl
    simp_all

variable [DecidableEq ι]

theorem mem_update_concat {j : ι} : y ∈ update L i (L i ++ [x]) j ↔ y ∈ L j ∨ (j = i ∧ y = x) := by
  by_cases hji : j = i
  · subst hji
    simp
  · simp [hji]

theorem mem_of_mem_update {j : ι} (hsub : xs.Sublist (L i)) (hy : y ∈ update L i xs j) : y ∈ L j := by
  by_cases hji : j = i
  · subst hji
    rw [update_self] at hy
    exact hsub.subset hy
  · simpa [hji] using hy

theorem Separate.concat (h : Separate L) (hx : ∀ j, x ∉ L j) : Separate (update L i (L i ++ [x])) := by
  constructor
  case nodup =>
    intro j
    by_cases hji : j = i
    · subst hji
      rw [update_self]
      refine nodup_append.mpr ⟨h.nodup j, by simp, ?_⟩
      intro y hy z hz hyz
      exact hx j (mem_singleton.mp hz ▸ hyz ▸ hy)
    · rw [update_of_ne hji]
      exact h.nodup j
  case disjoint =>
    intro j k y hj hk
    rw [mem_update_concat] at hj hk
    rcases hj with hj | ⟨hji, hyx⟩ <;> rcases hk with hk | ⟨hki, hyx'⟩
    · exact h.disjoint j k y hj hk
    · exact absurd (hyx' ▸ hj) (hx j)
    · exact absurd (hyx ▸ hk) (hx k)
    · rw [hji, hki]

theorem Separate.sublist (h : Separate L) (hsub : xs.Sublist (L i)) : Separate (update L i xs) := by
  constructor
  case nodup =>
    intro j
    by_cases hji : j = i
    · subst hji
      rw [update_self]
      exact (h.nodup j).sublist hsub
    · rw [update_of_ne hji]
      exact h.nodup j
  case disjoint =>
    intro j k y hj hk
    exact h.disjoint j k y (mem_of_mem_update hsub hj) (mem_of_mem_update hsub hk)

/-- An element taken off its list is in no list any more. -/
theorem Separate.not_mem_tail (h : Separate L) (hL : L i = x :: xs) (j : ι) : x ∉ update L i xs j := by
  intro hx
  by_cases hji : j = i
  · subst hji
    rw [update_self] at hx
    exact (nodup_cons.mp (hL ▸ h.nodup j)).1 hx
  · rw [update_of_ne hji] at hx
    exact hji (h.disjoint j i x hx (hL ▸ mem_cons_self))

namespace Holds

/-- One queue gets another list, and the others keep their links. -/
theorem relist {q' : LinkQueues ι α} {xs : List α} (h : q.Holds L) (hsep : Separate (update L i xs))
    (hhead : q'.head = update q.head i xs.head?) (htail : q'.tail = update q.tail i xs.getLast?)
    (hspells : q'.Spells xs) (hother : ∀ j, j ≠ i → ∀ y ∈ L j, q'.next y = q.next y ∧ q'.prev y = q.prev y)
    (hloose : ∀ y, (∀ j, y ∉ update L i xs j) → q'.next y = none ∧ q'.prev y = none) :
    q'.Holds (update L i xs) := by
  refine ⟨hsep, congrFun ?_, congrFun ?_, fun j => ?_, hloose⟩
  · rw [hhead, funext h.head]
    exact (comp_update List.head? L i xs).symm
  · rw [htail, funext h.tail]
    exact (comp_update List.getLast? L i xs).symm
  · by_cases hji : j = i
    · subst hji
      rwa [update_self]
    · rw [update_of_ne hji]
      exact (h.spells j).congr (fun y hy => (hother j hji y hy).1) fun y hy => (hother j hji y hy).2

/-! ## Emptying a queue -/

/-- The elements of a queue lose their links and the queue its ends. -/
theorem clear {q' : LinkQueues ι α} (h : q.Holds L) (hlinks : ∀ x ∈ L i, q'.next x = none ∧ q'.prev x = none)
    (hother : ∀ x, x ∉ L i → q'.next x = q.next x ∧ q'.prev x = q.prev x)
    (hhead : q'.head = update q.head i none) (htail : q'.tail = update q.tail i none) :
    q'.Holds (update L i []) := by
  refine h.relist (h.toSeparate.sublist (nil_sublist _)) hhead htail (fun A x B hsplit => ?_)
    (fun j hji y hy => hother y fun hyi => hji (h.disjoint j i y hy hyi)) fun y hy => ?_
  · simp at hsplit
  · by_cases hyi : y ∈ L i
    · exact hlinks y hyi
    · rw [(hother y hyi).1, (hother y hyi).2]
      refine h.loose y fun j hyj => hy j ?_
      rwa [update_of_ne (by rintro rfl; exact hyi hyj)]

end Holds

/-! ## The operations -/

variable [DecidableEq α]

/-- Appends `x` to queue `i`. -/
def pushBack (q : LinkQueues ι α) (i : ι) (x : α) : LinkQueues ι α where
  next := match q.tail i with
    | some l => update (update q.next x none) l (some x)
    | none => update q.next x none
  prev := update q.prev x (q.tail i)
  head := match q.tail i with
    | some _ => q.head
    | none => update q.head i (some x)
  tail := update q.tail i (some x)

/-- Takes the first element `x` of queue `i` off, given that it is `x`. -/
def dropFront (q : LinkQueues ι α) (i : ι) (x : α) : LinkQueues ι α where
  next := update q.next x none
  prev := match q.next x with
    | some y => update (update q.prev y none) x none
    | none => update q.prev x none
  head := update q.head i (q.next x)
  tail := match q.next x with
    | some _ => q.tail
    | none => update q.tail i none

/-- Takes `x` out of queue `i`, wherever it stands, and clears its links. -/
def unlink (q : LinkQueues ι α) (i : ι) (x : α) : LinkQueues ι α where
  next := match q.prev x with
    | some p => update (update q.next p (q.next x)) x none
    | none => update q.next x none
  prev := match q.next x with
    | some n => update (update q.prev n (q.prev x)) x none
    | none => update q.prev x none
  head := match q.prev x with
    | some _ => q.head
    | none => update q.head i (q.next x)
  tail := match q.next x with
    | some _ => q.tail
    | none => update q.tail i (q.prev x)

namespace Holds

/-! ## Appending -/

private theorem pushBack_next (q : LinkQueues ι α) (hyx : y ≠ x)
    (hy : q.tail i ≠ some y) : (q.pushBack i x).next y = q.next y := by
  unfold LinkQueues.pushBack
  cases ht : q.tail i with
  | none => simp [hyx]
  | some l =>
    have : y ≠ l := by rintro rfl; exact hy ht
    simp [this, hyx]

private theorem pushBack_prev (q : LinkQueues ι α) (hyx : y ≠ x) : (q.pushBack i x).prev y = q.prev y := by
  simp [LinkQueues.pushBack, hyx]

/-- The list that grows: its old last element now points to `x`. -/
private theorem pushBack_spells (h : q.Holds L) (hx : ∀ j, x ∉ L j) :
    (q.pushBack i x).Spells (L i ++ [x]) := by
  intro A y B hsplit
  rcases concat_eq_split hsplit with ⟨rfl, rfl, rfl⟩ | ⟨B', rfl, hB'⟩
  · have hself : q.tail i ≠ some y := fun hty => hx i (h.mem_of_tail hty)
    constructor
    · simp [LinkQueues.pushBack, h.tail i]
    unfold LinkQueues.pushBack
    cases ht : q.tail i with
    | none => simp
    | some l =>
      have : y ≠ l := by rintro rfl; exact hself ht
      simp [this]
  · have hy : y ∈ L i := by rw [hB']; simp
    have hyx : y ≠ x := by rintro rfl; exact hx i hy
    have hold := h.spells i A y B' hB'
    rw [pushBack_prev q hyx]
    refine ⟨hold.1, ?_⟩
    -- `y` was the last element exactly when nothing followed it
    cases B' with
    | nil =>
      have : q.tail i = some y := by rw [h.tail, hB']; simp
      simp [LinkQueues.pushBack, this]
    | cons b B' =>
    have hne : q.tail i ≠ some y := by
      intro hty
      have hnd := h.nodup i
      rw [h.tail, hB', List.getLast?_append, List.getLast?_cons_cons] at hty
      have hmem : y ∈ b :: B' := List.mem_of_getLast? (by simpa using hty)
      rw [hB'] at hnd
      exact (nodup_cons.mp (nodup_append.mp hnd).2.1).1 hmem
    rw [pushBack_next q hyx hne, hold.2]
    rfl

/-- Appending an element that is in no queue. -/
theorem pushBack (h : q.Holds L) (hx : ∀ j, x ∉ L j) : (q.pushBack i x).Holds (update L i (L i ++ [x])) := by
  refine h.relist (h.toSeparate.concat hx) ?_ (by simp [LinkQueues.pushBack]) (h.pushBack_spells hx) ?_ ?_
  · unfold LinkQueues.pushBack
    cases ht : q.tail i with
    | none =>
      have hnil : L i = [] := by simpa [ht] using (h.tail i).symm
      simp [hnil]
    | some l =>
      have hne : L i ≠ [] := ne_nil_of_mem (h.mem_of_tail ht)
      have hsame : (L i ++ [x]).head? = q.head i := by
        simp [h.head, List.head?_append, List.head?_eq_some_head hne]
      simp [hsame]
  · intro j hji y hy
    have hyx : y ≠ x := by
      rintro rfl
      exact hx j hy
    exact ⟨pushBack_next q hyx fun hty => hji (h.disjoint j i y hy (h.mem_of_tail hty)), pushBack_prev q hyx⟩
  · intro y hy
    have hout : ∀ j, y ∉ L j := fun j hyj => hy j (mem_update_concat.mpr (.inl hyj))
    have hyx : y ≠ x := fun hyx => hy i (mem_update_concat.mpr (.inr ⟨rfl, hyx⟩))
    rw [pushBack_next q hyx (fun hty => hout i (h.mem_of_tail hty)), pushBack_prev q hyx]
    exact h.loose y hout

/-! ## Taking any element -/

variable {A B : List α}

private theorem unlink_next (q : LinkQueues ι α) (hyx : y ≠ x) (hy : q.prev x ≠ some y) :
    (q.unlink i x).next y = q.next y :=
  (LinkList.unlink_next ⟨q.next, q.prev, q.head i⟩ hyx).trans (if_neg hy)

private theorem unlink_prev (q : LinkQueues ι α) (hyx : y ≠ x) (hy : q.next x ≠ some y) :
    (q.unlink i x).prev y = q.prev y :=
  (LinkList.unlink_prev ⟨q.next, q.prev, q.head i⟩ hyx).trans (if_neg hy)

private theorem unlink_self (q : LinkQueues ι α) :
    (q.unlink i x).next x = none ∧ (q.unlink i x).prev x = none := by
  unfold LinkQueues.unlink
  constructor
  · cases q.prev x <;> simp
  · cases q.next x <;> simp

/-- Taking an element out of its queue. -/
theorem unlink (h : q.Holds L) (hL : L i = A ++ x :: B) : (q.unlink i x).Holds (update L i (A ++ B)) := by
  have hone := (hL ▸ h.single i).unlink
  obtain ⟨hprev, hnext⟩ := h.spells i A x B hL
  have hxi : x ∈ L i := by rw [hL]; simp
  have hback : ∀ y, q.prev x = some y → y ∈ L i := by
    intro y hy
    rw [hL]
    exact mem_append_left _ (List.mem_of_getLast? (hprev ▸ hy))
  have hahead : ∀ y, q.next x = some y → y ∈ L i := by
    intro y hy
    rw [hL]
    exact mem_append_right _ (mem_cons_of_mem x (List.mem_of_head? (hnext ▸ hy)))
  have hsub : (A ++ B).Sublist (L i) := by
    rw [hL]
    exact (sublist_cons_self x B).append_left A
  refine h.relist (h.toSeparate.sublist hsub) ?_ ?_ hone.spells ?_ ?_
  · rw [← hone.head]
    cases hp : q.prev x <;> simp [LinkQueues.unlink, LinkList.unlink, hp]
  · have htail := h.tail i
    cases B with
    | nil => simp [LinkQueues.unlink, hnext, hprev]
    | cons b B =>
      have hsame : (A ++ b :: B).getLast? = q.tail i := by simp [htail, hL, List.getLast?_append]
      simp [LinkQueues.unlink, hnext, hsame]
  · intro j hji y hy
    have hyx : y ≠ x := by
      rintro rfl
      exact hji (h.disjoint j i y hy hxi)
    exact ⟨unlink_next q hyx fun hp => hji (h.disjoint j i y hy (hback y hp)),
      unlink_prev q hyx fun hn => hji (h.disjoint j i y hy (hahead y hn))⟩
  · intro y hy
    by_cases hyx : y = x
    · subst hyx
      exact unlink_self q
    have hout : ∀ j, y ∉ L j := by
      intro j hyj
      apply hy j
      by_cases hji : j = i
      · subst hji
        rw [update_self]
        rw [hL] at hyj
        simpa [hyx] using hyj
      · rwa [update_of_ne hji]
    rw [unlink_next q hyx fun hp => hout i (hback y hp), unlink_prev q hyx fun hn => hout i (hahead y hn)]
    exact h.loose y hout

/-- Taking the first element off a queue: it has no predecessor, so this is the general case. -/
theorem dropFront {xs : List α} (h : q.Holds L) (hL : L i = x :: xs) :
    (q.dropFront i x).Holds (update L i xs) := by
  have hprev : q.prev x = none := (h.spells i [] x xs hL).1
  have hunlink : q.dropFront i x = q.unlink i x := by
    unfold LinkQueues.dropFront LinkQueues.unlink
    rw [hprev]
  rw [hunlink]
  exact h.unlink (A := []) hL

end Holds

end LinkQueues

end Lapis.Lib
