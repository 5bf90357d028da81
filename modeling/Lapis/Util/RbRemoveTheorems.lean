/-
Lapis.Util.RbRemoveTheorems — `rb_remove` keeps the red-black tree.

Unlinking a black node leaves a hole one black node short. The loop of
`_remove_fixup` carries that deficit upwards: in `RemoveInv` the path
expects black height `n + 1` while the focus has height `n`, or is red
and has height `n + 1` once it is painted black. Each turn either ends
the deficit, or moves it one level up, or (red sibling) makes sure that
the next turn ends it.
-/
import Lapis.Util.RbInsertTheorems

namespace Lapis.Util.RbTree

open Lapis.Lib Lapis.Lib.Tree
open List Option

variable {α : Type}

/-- The subtree a deficit of one black node may sit at: painted black it
fills the hole, or it is black and one short. -/
def Deficient (t : Lib.Tree α) (n : Nat) : Prop :=
  (t.color = .red → Balanced t.blacken (n + 1)) ∧ (t.color = .black → Balanced t n)

/-- The loop invariant of `_remove_fixup`. At the root the variable
`parent` is stale, the loop does not read it any more. -/
def RemoveInv (s : RbTree α) (k : Path α) (t : Lib.Tree α) (node parent : Option α)
    (L : List α) (sz : Nat) : Prop :=
  Focus s k t ∧ node = t.root? ∧ (k ≠ [] → parent = Path.parent? k) ∧
    (∃ n, PathBalanced k (n + 1) ∧ Deficient t n) ∧ (Path.plug k t).toList = L ∧ s.size = sz

variable {s : RbTree α} {t : Lib.Tree α} {parent : Option α} {L : List α} {m : Nat}

/-- A balanced whole tree is the invariant at the root, whatever `parent`. -/
theorem RemoveInv.of_root (h : Focus s [] t) (hb : Balanced t m) (hc : t.color = .black) (hL : t.toList = L) :
    RemoveInv s [] t s.root parent L s.size :=
  ⟨h, h.path, by simp, ⟨m, .nil, by simp [hc], fun _ => hb⟩, by simpa using hL, rfl⟩

variable {k : Path α}

/-- The progress measure of `_remove_fixup`: a red focus ends the loop. -/
def removeMeasure (k : Path α) (t : Lib.Tree α) : Nat :=
  2 * k.length + if t.color = .black then 1 else 0

theorem removeMeasure_lt {k' : Path α} {t' : Lib.Tree α} (ht : t.color = .black)
    (h : k'.length < k.length ∨ k'.length = k.length ∧ t'.color = .red) :
    removeMeasure k' t' < removeMeasure k t := by
  simp only [removeMeasure, ht, if_true]
  rcases h with h | ⟨h, hc⟩
  · split <;> omega
  · simp [hc]; omega

variable {l r : Lib.Tree α} {a : α}

/-- The walk to the leftmost node of a subtree: it follows left frames only,
so nothing of the subtree comes before the node it reaches. -/
theorem leftmost_spec (h : Focus s k (.node c l a r)) (hfuel : l.toList.length < fuel) :
    ∃ k' d y yr, s.leftmost fuel a = some y ∧
      Lib.Tree.node c l a r = Path.plug k' (.node d .nil y yr) ∧ Path.before k' = [] := by
  induction l generalizing fuel k c a r with
  | nil =>
    cases fuel with
    | zero => omega
    | succ fuel => exact ⟨[], c, a, r, by simp [leftmost, h.node], rfl, rfl⟩
  | node c' l' a' r' ihl ihr =>
    cases fuel with
    | zero => omega
    | succ fuel =>
    simp only [toList_node, length_append, length_cons] at hfuel
    obtain ⟨k', d, y, yr, he, hplug, hbefore⟩ :=
      ihl (focus_left_iff.mpr h) (show l'.toList.length < fuel by omega)
    refine ⟨k' ++ [.left c a r], d, y, yr, by simp [leftmost, h.node, he], ?_, ?_⟩
    · simp [Path.plug_append, ← hplug, Frame.fill]
    clear hplug
    induction k' with
    | nil => rfl
    | cons f k' ih =>
      simp only [Path.before_cons, append_eq_nil_iff] at hbefore
      simp [ih hbefore.1, hbefore.2]

theorem elem_mem_pathElems (k1 k2 : Path α) (f : Frame α) : f.elem ∈ pathElems (k1 ++ f :: k2) := by
  induction k1 with
  | nil => exact mem_pathElems_cons.mpr (.inl rfl)
  | cons g k1 ih => exact mem_pathElems_cons.mpr (.inr (.inr ih))

theorem exists_root?_plug_cons (f : Frame α) (k : Path α) (t : Lib.Tree α) :
    ∃ b, (Path.plug (f :: k) t).root? = some b := by
  cases hb : (Path.plug (f :: k) t).root? with
  | some b => exact ⟨b, rfl⟩
  | none =>
    have := congrArg Lib.Tree.toList (eq_nil_of_root? hb)
    rw [Path.plug_cons, Path.toList_plug] at this
    cases f <;> simp [Frame.fill] at this

variable {c : Color}

/-- Taking a node with at most one child `v` out of a balanced tree: a black
node leaves a deficit at `v`, a red one does not. -/
theorem balance_of_unlink {v : Lib.Tree α} (hb : Balanced (Path.plug k (.node c l y r)) m)
    (hc : (Path.plug k (.node c l y r)).color = .black) (hv : l = .nil ∧ v = r ∨ r = .nil ∧ v = l) :
    ∃ n, (c = .black → PathBalanced k (n + 1) ∧ Deficient v n) ∧
      (c = .red → PathBalanced k n ∧ Balanced v n ∧ v.color = .black) := by
  obtain ⟨n, bk, bt, -, -⟩ := PathBalanced.of_plug hb hc
  cases c with
  | red =>
    obtain ⟨hl, hr, bl, br⟩ := bt.of_red
    refine ⟨n, by simp, fun _ => ⟨bk, ?_⟩⟩
    rcases hv with ⟨-, rfl⟩ | ⟨-, rfl⟩
    · exact ⟨br, hr⟩
    · exact ⟨bl, hl⟩
  | black =>
  cases bt with
  | @black _ _ _ n' bl br =>
  refine ⟨n', fun _ => ⟨bk, ?_⟩, by simp⟩
  have bv : Balanced v n' := by
    rcases hv with ⟨-, rfl⟩ | ⟨-, rfl⟩
    · exact br
    · exact bl
  exact ⟨bv.blacken_of_red, fun _ => bv⟩

variable [DecidableEq α]

theorem Focus.setColorIf (h : Focus s k t) : Focus (s.setColorIf t.root? .black) k t.blacken := by
  cases t with
  | nil => exact h
  | node c l a r => exact h.setColor .black

/-! ## One turn with a black sibling -/

/-- The loop body of `_remove_fixup` with the node on the side, from the test of the sibling's
children on. -/
def removeCase : Side → RbTree α → α → α → Option (Option α × Option α × RbTree α)
  | .left => removeCaseLeft
  | .right => removeCaseRight

/-- The last turn: the sibling takes the colour of the parent and the parent is rotated down to the
side of the node. The far child of the sibling is red. -/
theorem remove_finish {d : Side} {f : Frame α} {e : Color}
    {a b : Lib.Tree α} {p g : α} {n : Nat} (h : Focus s k (d.branch c t p (d.branch e a g b)))
    (bt : Balanced t n) (ba : Balanced a n) (hb : b.color = .red) (bb : Balanced b n)
    (hk : PathBalanced (f :: k) (n + 1)) (hf : f.color = c) :
    ∃ s' t', rotate d (((s.setColor g c).setColor p .black).setColorIf b.root? .black) p = some s' ∧
      RemoveInv s' [] t' s'.root (some p)
        (Path.plug k (d.branch c t p (d.branch e a g b))).toList s.size := by
  have h1 := focus_far_iff.mp ((focus_far_iff.mpr h).setColor_branch c)
  have h2 := focus_far_iff.mpr (h1.setColor_branch .black)
  have h3 := focus_far_iff.mp (focus_far_iff.mp (focus_far_iff.mpr h2).setColorIf)
  obtain ⟨s', he, hfoc, hsz⟩ := h3.rotate
  have bb' := bb.blacken_of_red hb
  have bta := d.balanced_black (a := p) bt ba
  obtain ⟨⟨m, hbal⟩, hcol⟩ := hk.plug_parent
    (t := d.branch c (d.branch .black t p a) g b.blacken) (by rw [Side.color_branch, hf])
    (fun e => by rw [← hf, e]; exact d.balanced_red (by simp) (by simp) bta bb')
    (fun e => by rw [← hf, e]; exact d.balanced_black bta bb')
  have hwhole : Focus s' [] (Path.plug k (d.branch c (d.branch .black t p a) g b.blacken)) := by
    apply focus_plug_iff.mp; simpa using hfoc
  refine ⟨s', Path.plug k (d.branch c (d.branch .black t p a) g b.blacken), he, ?_⟩
  simp only [size_setColor, size_setColorIf] at hsz
  rw [← hsz]
  refine .of_root hwhole hbal hcol ?_
  cases d <;> simp [Path.toList_plug, Side.branch]

/-- The loop body with a black sibling. -/
theorem removeCase_inv {d : Side} {a b : Lib.Tree α}
    {p g : α} {n : Nat} (h : Focus s (d.frame c p (d.branch .black a g b) :: k) t)
    (bt : Balanced t n) (ba : Balanced a n) (bb : Balanced b n)
    (hk : PathBalanced (d.frame c p (d.branch .black a g b) :: k) (n + 1)) :
    ∃ node' parent' s' k' t', removeCase d s p g = some (node', parent', s') ∧
      RemoveInv s' k' t' node' parent'
        (Path.plug (d.frame c p (d.branch .black a g b) :: k) t).toList s.size ∧
      (k' = [] ∨ k' = k ∧ t'.color = c) := by
  have hfoc := focus_near_iff.mp h
  have hsib := focus_far_iff.mpr hfoc
  have hg := hsib.node_branch
  have hga := (focus_near_iff.mpr hsib).rbNodeColor
  have hgb := (focus_far_iff.mpr hsib).rbNodeColor
  have hp := hfoc.node_branch
  have hne : ∀ x ∈ (d.branch .black a g b).toList, x ≠ p := by
    rintro x hx rfl
    refine (nodup_plug.mp hsib.nodup).2.2 x hx (mem_pathElems_cons.mpr (.inl ?_))
    exact (d.other.elem_frame ..).symm
  have hgp : g ≠ p := hne g (by simp)
  rw [Path.plug_cons, Side.fill_frame]
  by_cases hab : a.color = .black ∧ b.color = .black
  · -- both nephews black: the sibling turns red and the deficit moves up
    have bsib := d.balanced_red (a := g) hab.1 hab.2 ba bb
    have hfoc' := focus_far_iff.mp (hsib.setColor_branch .red)
    refine ⟨some p, Path.parent? k, s.setColor g .red, k, _, ?_,
      ⟨hfoc', by simp, fun _ => rfl, ?_, ?_, rfl⟩, .inr ⟨rfl, by simp⟩⟩
    · cases d <;> simp_all [removeCase, removeCaseLeft, removeCaseRight, record, Ne.symm hgp]
    · simp only [Deficient, Side.color_branch, Side.blacken_branch]
      cases hk with
      | red hf hs bs hg' bk =>
        rw [Side.color_frame] at hf
        subst hf
        exact ⟨n, bk, fun _ => d.balanced_black bt bsib, by simp⟩
      | black hf bs bk =>
        rw [Side.color_frame] at hf
        subst hf
        exact ⟨n + 1, bk, by simp, fun _ => d.balanced_black bt bsib⟩
    · cases d <;> simp [Path.toList_plug, Side.branch]
  · cases hb : b.color with
    | red =>
      obtain ⟨s', t', he, hinv⟩ := remove_finish hfoc bt ba hb bb hk (by simp)
      refine ⟨s'.root, some p, s', [], t', ?_, hinv, .inl rfl⟩
      cases d <;> simp_all [removeCase, removeCaseLeft, removeCaseRight, record, rotate]
    | black =>
      -- only the near nephew is red: rotate it into the sibling's place first
      have ha : a.color = .red := by
        cases ha : a.color with
        | red => rfl
        | black => exact absurd ⟨ha, hb⟩ hab
      obtain ⟨a1, y, a2, rfl⟩ : ∃ a1 y a2, a = d.branch .red a1 y a2 := d.exists_branch_of_red ha
      obtain ⟨h1, h2, ba1, ba2⟩ := Side.of_balanced_red ba
      have hc1 := focus_near_iff.mp ((focus_near_iff.mpr hsib).setColor_branch .black)
      have hc2 := hc1.setColor_branch .red
      rw [← d.branch_other .red, ← d.branch_other .black] at hc2
      obtain ⟨s1, he1, hfoc1, hsz1⟩ := hc2.rotate
      rw [Side.branch_other, Side.branch_other] at hfoc1
      have hfoc2 := focus_far_iff.mp hfoc1
      obtain ⟨s', t', he, hinv⟩ := remove_finish hfoc2 bt ba1 (by simp)
        (d.balanced_red h2 hb ba2 bb) hk (by simp)
      refine ⟨s'.root, some p, s', [], t', ?_, ?_, .inl rfl⟩
      · have hp1 := hfoc2.node_branch
        have hy1 := hfoc1.node_branch
        have hyp : y ≠ p := hne y (by simp)
        cases d <;> simp_all [removeCase, removeCaseLeft, removeCaseRight, record, rotate, Side.other]
      · have hsz : s1.size = s.size := by simpa using hsz1
        rw [hsz] at hinv
        convert hinv using 1
        cases d <;> simp [Path.toList_plug, Side.branch]

/-! ## The loop -/

/-- One turn of the loop of `_remove_fixup` keeps the invariant and makes
progress. -/
theorem removeFixupStep_inv {node : Option α}
    {sz : Nat} (h : RemoveInv s k t node parent L sz) (ht : t.color = .black) (hk : k ≠ []) :
    ∃ node' parent' s' k' t', s.removeFixupStep node parent = some (node', parent', s') ∧
      RemoveInv s' k' t' node' parent' L sz ∧ removeMeasure k' t' < removeMeasure k t := by
  obtain ⟨hfoc, rfl, hpar, ⟨n, bk, -, bt⟩, rfl, rfl⟩ := h
  replace bt := bt ht
  have hpar := hpar hk
  cases k with
  | nil => exact absurd rfl hk
  | cons f k =>
  obtain ⟨d, c, p, sib, rfl⟩ := f.exists_side
  have htop := focus_near_iff.mp hfoc
  have hp := htop.node_branch
  have bsib : Balanced sib (n + 1) := by
    cases bk with
    | red _ _ bs => simpa using bs
    | black _ bs _ => simpa using bs
  obtain ⟨e, a, g, b, rfl⟩ := d.exists_branch bsib
  have hg := (focus_far_iff.mpr htop).node_branch
  have hne : t.root? ≠ some g := fun e => hfoc.sibling_root?_ne e (by simp)
  rw [Path.parent?_cons, Side.elem_frame] at hpar
  cases e with
  | black =>
    obtain ⟨ba, bb⟩ := Side.of_balanced_black bsib
    obtain ⟨node', parent', s', k', t', he, hinv, hprog⟩ := removeCase_inv hfoc bt ba bb bk
    refine ⟨node', parent', s', k', t', ?_, hinv, removeMeasure_lt ht ?_⟩
    · cases d <;> simp_all [removeFixupStep, removeCase, record, RbTree.isRed]
    · rcases hprog with rfl | ⟨rfl, -⟩ <;> simp
  | red =>
  -- a red sibling: after the rotation the parent is red and the new
  -- sibling is the black near nephew
  cases bk with
  | red hf hs => simp at hs
  | black hf bs bk =>
  rw [Side.color_frame] at hf
  subst hf
  obtain ⟨ha, hb, ba, bb⟩ := Side.of_balanced_red bsib
  obtain ⟨e, a1, y, a2, rfl⟩ := d.exists_branch ba
  rw [Side.color_branch] at ha
  subst ha
  obtain ⟨ba1, ba2⟩ := Side.of_balanced_black ba
  have h1 := focus_far_iff.mp ((focus_far_iff.mpr htop).setColor_branch .black)
  obtain ⟨s1, he1, hfoc1, hsz1⟩ := (h1.setColor_branch .red).rotate
  have hfoc2 := focus_near_iff.mpr hfoc1
  have bk2 : PathBalanced (d.frame .red p (d.branch .black a1 y a2) ::
      d.frame .black g b :: k) (n + 1) :=
    .red (by simp) (by simp) (by simpa using ba) (by simp) (.black (by simp) (by simpa using bb) bk)
  obtain ⟨node', parent', s', k', t', he, hinv, hprog⟩ :=
    removeCase_inv (focus_near_iff.mpr hfoc2) bt ba1 ba2 bk2
  refine ⟨node', parent', s', k', t', ?_, ?_, removeMeasure_lt ht ?_⟩
  · have hp1 := hfoc2.node_branch
    cases d <;> simp_all [removeFixupStep, removeCase, record, rotate, RbTree.isRed]
  · have hsz : s1.size = s.size := by simpa using hsz1
    rw [hsz] at hinv
    convert hinv using 1
    cases d <;> simp [Path.toList_plug, Side.branch]
  · rcases hprog with rfl | ⟨rfl, hc⟩ <;> simp [*]

variable {fuel : Nat}

/-- `_remove_fixup` returns, on a red-black tree with the same nodes. -/
theorem removeFixup_spec {node : Option α} {sz : Nat}
    (h : RemoveInv s k t node parent L sz) (hfuel : removeMeasure k t < fuel) :
    ∃ s' t', removeFixup fuel s node parent = some s' ∧ Focus s' [] t' ∧
      (∃ m, Balanced t' m) ∧ t'.color = .black ∧ t'.toList = L ∧ s'.size = sz := by
  induction fuel generalizing s k t node parent with
  | zero => omega
  | succ fuel ih =>
    obtain ⟨hfoc, hnode, hpar, ⟨n, bk, bred, bblack⟩, hL, hsz⟩ := id h
    by_cases hexit : t.color = .black ∧ k ≠ []
    · obtain ⟨ht, hk⟩ := hexit
      obtain ⟨node', parent', s', k', t', hstep, hinv, hlt⟩ := removeFixupStep_inv h ht hk
      obtain ⟨s'', t'', he, hrest⟩ := ih hinv (by omega)
      refine ⟨s'', t'', ?_, hrest⟩
      have hcond : s.rbNodeColor node = .black ∧ node ≠ s.root := by
        subst hnode
        exact ⟨hfoc.rbNodeColor.trans ht, fun e => hk (hfoc.root?_eq_root.mp e)⟩
      simp [removeFixup, hcond, hstep, he]
    · -- the loop stops: the focus is red, or it is the whole tree
      have hcond : ¬ (s.rbNodeColor node = .black ∧ node ≠ s.root) := by
        subst hnode
        rintro ⟨h1, h2⟩
        exact hexit ⟨hfoc.rbNodeColor.symm.trans h1, fun e => h2 (hfoc.root?_eq_root.mpr e)⟩
      have hwhole : Focus (s.setColorIf t.root? .black) [] (Path.plug k t.blacken) := by
        apply focus_plug_iff.mp; simpa using hfoc.setColorIf
      have hbal : ∃ m, Balanced (Path.plug k t.blacken) m := by
        cases ht : t.color with
        | red => exact bk.plug (bred ht) (by simp)
        | black =>
          have hk : k = [] := by by_contra hk; exact hexit ⟨ht, hk⟩
          subst hk
          exact (bblack ht).blacken
      refine ⟨s.setColorIf node .black, Path.plug k t.blacken, ?_, by rw [hnode]; exact hwhole,
        hbal, bk.color_plug (by simp), ?_, by simp [hsz]⟩
      · simp [removeFixup, hcond]
      · rw [← hL, Path.toList_plug, Path.toList_plug]; simp

/-! ## Unlinking -/

variable {x y : α} {d : Color}

/-- The end of the two-children branch of `rb_remove`: the node `y`, with
`r` already hanging on its right, takes over the place, the left subtree
and the colour of `x`. -/
theorem splice_focus {par right : Option α} (hpath : PathRepr s.nodes s.root k (some x))
    (hx : s.nodes x = ⟨Path.parent? k, l.root?, right, c⟩) (hl : Repr s.nodes (some x) l)
    (hv : Repr s.nodes par (.node d .nil y r)) (ha : l.root? = some a)
    (hn : (Path.plug k (.node c l y r)).toList.Nodup)
    (hxn : x ∉ (Path.plug k (.node c l y r)).toList) : let s1 := s.transplant x (some y)
    let s2 := s1.setLeft y (s1.nodes x).left
    (s2.nodes y).left = some a ∧
      Focus ((s2.setParent a (some y)).setColor y ((s2.setParent a (some y)).nodes x).color) k
        (.node c l y r) := by
  intro s1 s2
  obtain ⟨hk, ht, hd⟩ := nodup_plug.mp hn
  have hxk : x ∉ pathElems k := by
    rw [Path.toList_plug] at hxn; simp [pathElems] at hxn ⊢; tauto
  simp only [toList_node, nodup_append, nodup_cons, mem_cons] at ht
  obtain ⟨hln, ⟨hyr, hrn⟩, hly⟩ := ht
  have hxlyr : x ∉ l.toList ∧ x ≠ y ∧ x ∉ r.toList := by
    rw [Path.toList_plug] at hxn; simp at hxn; tauto
  have hvn : (Path.plug k (.node d .nil y r)).toList.Nodup := by
    refine nodup_plug.mpr ⟨hk, by simp [hyr, hrn], fun z hz => hd z ?_⟩
    simp at hz ⊢; tauto
  have hvx : x ∉ (Lib.Tree.node d .nil y r).toList := by simp; tauto
  obtain ⟨hfoc, hout⟩ := transplant_focus hpath (by rw [hx]) hxk hvx hv hvn
  simp only [root?_node] at hfoc hout
  have hx1 : s1.nodes x = s.nodes x := hout x hxk hvx
  have hl1 : ∀ z ∈ l.toList, s1.nodes z = s.nodes z := by
    intro z hz
    refine hout z (hd z (by simp [hz])) ?_
    simp only [toList_node, toList_nil, nil_append, mem_cons, not_or]
    exact ⟨fun e => hly z hz y (.inl rfl) e, fun hr => hly z hz z (.inr hr) rfl⟩
  have hal : a ∈ l.toList := mem_of_root? ha
  have hay : a ≠ y := fun e => hly a hal y (.inl rfl) e
  have hax : a ≠ x := fun e => hxlyr.1 (e ▸ hal)
  have hy1 : s1.nodes y = ⟨Path.parent? k, none, r.root?, d⟩ := hfoc.node
  -- the final record of every node
  have hfin : ∀ z, ((s2.setParent a (some y)).setColor y
      ((s2.setParent a (some y)).nodes x).color).nodes z =
      if z = y then ⟨Path.parent? k, l.root?, r.root?, c⟩
      else if z = a then { s1.nodes z with parent := some y } else s1.nodes z := by
    intro z
    by_cases h1 : z = y
    · simp [h1, s2, hay.symm, hxlyr.2.1, hax.symm, hx1, hx, hy1]
    · by_cases h2 : z = a
      · simp [h2, s2, hay]
      · simp [h1, h2, s2]
  refine ⟨by simp [s2, hx1, hx, ha], ⟨?_, ⟨?_, ?_, ?_⟩, hn⟩⟩
  · refine hfoc.path.congr fun z hz => ?_
    have h1 : z ≠ y := fun e => hd y (by simp) (e ▸ hz)
    have h2 : z ≠ a := fun e => hd a (by simp [hal]) (e ▸ hz)
    rw [hfin, if_neg h1, if_neg h2]
  · rw [hfin, if_pos rfl]
  · refine hl.reparent hln fun z hz => ?_
    have h1 : z ≠ y := fun e => hly z hz y (.inl rfl) e
    rw [hfin, if_neg h1, ha, hl1 z hz]
    simp only [some.injEq, eq_comm]
  · refine hfoc.tree.2.2.congr fun z hz => ?_
    have h1 : z ≠ y := fun e => hyr (e ▸ hz)
    have h2 : z ≠ a := fun e => hly a hal z (.inr hz) e.symm
    rw [hfin, if_neg h1, if_neg h2]

/-- `y->right = node->right; y->right->parent = y;` for a node `y` outside the
tree: the right subtree `R` of `x` now hangs under `y`. -/
theorem hang_right {R : Lib.Tree α} {b : α}
    {par right : Option α} (h : Focus s k (.node c l x R)) (hb : R.root? = some b)
    (hy : s.nodes y = ⟨par, none, right, d⟩) (hyn : y ∉ (Path.plug k (.node c l x R)).toList) :
    let s' := (s.setRight y (s.nodes x).right).setParent b (some y)
    ((s.setRight y (s.nodes x).right).nodes y).right = some b ∧ PathRepr s'.nodes s'.root k (some x) ∧
      s'.nodes x = ⟨Path.parent? k, l.root?, some b, c⟩ ∧ Repr s'.nodes (some x) l ∧
      Repr s'.nodes par (.node d .nil y R) := by
  intro s'
  obtain ⟨hx, hl, hR⟩ := h.tree
  obtain ⟨-, ht, hd⟩ := nodup_plug.mp h.nodup
  simp only [toList_node, nodup_append, nodup_cons, mem_cons] at ht
  obtain ⟨-, ⟨hxR, hRn⟩, hlx⟩ := ht
  have hbR : b ∈ R.toList := mem_of_root? hb
  rw [Path.toList_plug] at hyn
  simp only [toList_node, mem_append, mem_cons, not_or] at hyn
  obtain ⟨⟨hyk, hyl, hyx, hyR⟩, hyk'⟩ := hyn
  have hby : b ≠ y := fun e => hyR (e ▸ hbR)
  have hs' : ∀ z, s'.nodes z = if z = y then ⟨par, none, some b, d⟩
      else if z = b then { s.nodes z with parent := some y } else s.nodes z := by
    intro z
    by_cases h1 : z = y
    · simp [s', h1, hby.symm, hy, hx, hb]
    · by_cases h2 : z = b
      · simp [s', h2, hby]
      · simp [s', h1, h2]
  refine ⟨by simp [hx, hb], ?_, ?_, ?_, ?_, trivial, ?_⟩
  · refine (show PathRepr s.nodes s'.root k (some x) from h.path).congr fun z hz => ?_
    have h1 : z ≠ y := by
      rintro rfl
      simp only [pathElems, mem_append] at hz
      tauto
    have h2 : z ≠ b := fun e => hd b (by simp [hbR]) (e ▸ hz)
    rw [hs', if_neg h1, if_neg h2]
  · rw [hs', if_neg (fun e => hyx e.symm), if_neg (fun e : x = b => hxR (e ▸ hbR)), hx, hb]
  · refine hl.congr fun z hz => ?_
    have h1 : z ≠ y := fun e => hyl (e ▸ hz)
    have h2 : z ≠ b := fun e => hlx z hz b (.inr hbR) e
    rw [hs', if_neg h1, if_neg h2]
  · rw [hs', if_pos rfl, hb]; rfl
  · refine hR.reparent hRn fun z hz => ?_
    have h1 : z ≠ y := fun e => hyR (e ▸ hz)
    rw [hs', if_neg h1, hb]
    simp only [some.injEq, eq_comm]

/-- The two-children branch of `rb_remove`, the successor `y` of `x` sitting
at the end of the left frames `k'` below the right child of `x`. -/
theorem removeSplice_spec {k' : Path α} {yr : Lib.Tree α}
    (h : Focus s (k' ++ .right c l x :: k) (.node d .nil y yr)) (ha : l.root? = some a) :
    ∃ xp s', s.removeSplice x y = some (xp, s') ∧ s'.size = s.size ∧ Focus s' (k' ++ .right c l y :: k) yr ∧
      xp = Path.parent? (k' ++ .right c l y :: k) := by
  have htop : Focus s k (.node c l x (Path.plug k' (.node d .nil y yr))) :=
    focus_right_iff.mp (focus_plug_iff.mp h)
  have hperm : (Path.plug k (.node c l x (Path.plug k' (.node d .nil y yr)))).toList.Perm
      (x :: (Path.plug k (.node c l y (Path.plug k' yr))).toList) := by
    refine perm_iff_count.mpr fun z => ?_
    simp only [Path.toList_plug, toList_node, toList_nil, count_append, count_cons, count_nil]
    omega
  obtain ⟨hxn, hn⟩ := nodup_cons.mp (hperm.nodup_iff.mp htop.nodup)
  cases k' with
  | nil =>
    -- the successor is the right child itself
    obtain ⟨hx, hl, hv⟩ := htop.tree
    obtain ⟨hleft, hfoc⟩ := splice_focus htop.path hx hl hv ha hn hxn
    refine ⟨some y, _, ?_, ?_, focus_right_iff.mpr hfoc, rfl⟩
    · have hy : (s.nodes y).parent = some x := by rw [h.node]; rfl
      simp only [removeSplice, hy, if_true, bind_eq_bind, bind_some, hleft]
    · simp
  | cons f k' =>
  have hy := h.node
  simp only [cons_append, Path.parent?_cons, root?_nil] at hy
  obtain ⟨hpk, hyrn, hpd⟩ := nodup_plug.mp h.nodup
  simp only [toList_node, toList_nil, nil_append, nodup_cons] at hyrn
  have hfx : f.elem ≠ x := fun e =>
    (nodup_pathElems_cons hpk).2.1 (e ▸ elem_mem_pathElems k' k (.right c l x))
  have hn1 : (Path.plug (f :: k' ++ .right c l x :: k) yr).toList.Nodup :=
    nodup_plug.mpr ⟨hpk, hyrn.2, fun z hz => hpd z (by simp [hz])⟩
  -- first the successor leaves its place, then the right subtree moves under it
  obtain ⟨hfoc1, hout1⟩ := transplant_focus h.path (by rw [h.node]) (hpd y (by simp)) hyrn.1
    h.tree.2.2 hn1
  have hy1 := (hout1 y (hpd y (by simp)) hyrn.1).trans hy
  have htop1 := focus_right_iff.mp (focus_plug_iff.mp hfoc1)
  have hyn1 : y ∉ (Path.plug k (.node c l x (Path.plug (f :: k') yr))).toList := by
    have hin : (Path.plug k (.node c l x (Path.plug (f :: k') yr))).toList =
        (Path.plug (f :: k' ++ .right c l x :: k) yr).toList := by
      rw [Path.plug_append]; rfl
    rw [hin, Path.toList_plug]
    have := hpd y (by simp)
    simp only [pathElems, mem_append, not_or] at this ⊢
    exact ⟨⟨this.1, hyrn.1⟩, this.2⟩
  obtain ⟨b, hb⟩ := exists_root?_plug_cons f k' yr
  obtain ⟨hyb, hpath, hx, hl, hv⟩ := hang_right htop1 hb hy1 hyn1
  obtain ⟨hleft, hfoc⟩ := splice_focus hpath hx hl hv ha hn hxn
  refine ⟨some f.elem, _, ?_, ?_, focus_plug_iff.mpr (focus_right_iff.mpr hfoc), rfl⟩
  · have hyx : ¬ (some f.elem = some x) := by simpa using hfx
    simp only [removeSplice, hy, hyx, if_false, bind_eq_bind, bind_some, hyb, hleft]
  · simp

/-! ## The whole operation -/

/-- The unlinking part of `rb_remove`: the hole it leaves has a fitting
subtree, short of one black node when the unlinked node was black. -/
theorem removeUnlink_spec (h : Focus s k (.node c l x r)) (hb : Balanced (Path.plug k (.node c l x r)) m)
    (hc : (Path.plug k (.node c l x r)).color = .black) (hfuel : r.toList.length < fuel) :
    ∃ yc xp s' k' t n A B, s.removeUnlink fuel x = some (yc, t.root?, xp, s') ∧
      Focus s' k' t ∧ xp = Path.parent? k' ∧ s'.size = s.size ∧
      (yc = .black → PathBalanced k' (n + 1) ∧ Deficient t n) ∧
      (yc = .red → PathBalanced k' n ∧ Balanced t n ∧ t.color = .black) ∧
      (Path.plug k (.node c l x r)).toList = A ++ x :: B ∧ (Path.plug k' t).toList = A ++ B := by
  have hx := h.node
  obtain ⟨hk, ht, hd⟩ := nodup_plug.mp h.nodup
  simp only [toList_node, nodup_append, nodup_cons, mem_cons] at ht
  obtain ⟨hln, ⟨hxr, hrn⟩, hlx⟩ := ht
  have hxl : x ∉ l.toList := fun hm => hlx x hm x (.inl rfl) rfl
  have hxk := hd x (by simp)
  cases l with
  | nil =>
    obtain ⟨n, hblack, hred⟩ := balance_of_unlink hb hc (.inl ⟨rfl, rfl⟩)
    have hn : (Path.plug k r).toList.Nodup :=
      nodup_plug.mpr ⟨hk, hrn, fun z hz => hd z (by simp [hz])⟩
    obtain ⟨hfoc, -⟩ := transplant_focus h.path (by rw [hx]) hxk hxr h.tree.2.2 hn
    refine ⟨c, _, _, k, r, n, Path.before k, r.toList ++ Path.after k, ?_, hfoc, rfl, by simp,
      hblack, hred, by simp [Path.toList_plug], by simp [Path.toList_plug]⟩
    simp only [removeUnlink, hx, root?_nil]
  | node cl ll a lr =>
  cases r with
  | nil =>
    obtain ⟨n, hblack, hred⟩ := balance_of_unlink hb hc (.inr ⟨rfl, rfl⟩)
    have hn : (Path.plug k (.node cl ll a lr)).toList.Nodup :=
      nodup_plug.mpr ⟨hk, hln, fun z hz => hd z (mem_append_left _ hz)⟩
    obtain ⟨hfoc, -⟩ := transplant_focus h.path (by rw [hx]) hxk hxl h.tree.2.1 hn
    refine ⟨c, _, _, k, .node cl ll a lr, n, Path.before k ++ (Lib.Tree.node cl ll a lr).toList,
      Path.after k, ?_, hfoc, rfl, by simp, hblack, hred, by simp [Path.toList_plug],
      by simp [Path.toList_plug]⟩
    simp only [removeUnlink, hx, root?_nil, root?_node]
  | node cr rl b rr =>
  have hfr := focus_right_iff.mpr h
  simp only [toList_node, length_append, length_cons] at hfuel
  obtain ⟨k', d, y, yr, hy, hplug, hbefore⟩ :=
    leftmost_spec hfr (show rl.toList.length < fuel by omega)
  rw [hplug] at hfr hb hc ⊢
  have hyfoc := focus_plug_iff.mpr hfr
  obtain ⟨xp, s', he, hsz, hfoc, hxp⟩ := removeSplice_spec hyfoc rfl
  have hwhole : Path.plug k (.node c (.node cl ll a lr) x (Path.plug k' (.node d .nil y yr))) =
      Path.plug (k' ++ .right c (.node cl ll a lr) x :: k) (.node d .nil y yr) := by
    rw [Path.plug_append]; rfl
  rw [hwhole] at hb hc
  obtain ⟨n, hblack, hred⟩ := balance_of_unlink hb hc (.inl ⟨rfl, rfl⟩)
  refine ⟨d, xp, s', _, yr, n, Path.before k ++ (Lib.Tree.node cl ll a lr).toList,
    y :: (yr.toList ++ Path.after k' ++ Path.after k), ?_, hfoc, hxp, hsz,
    fun e => ⟨(hblack e).1.replace_elem, (hblack e).2⟩,
    fun e => ⟨(hred e).1.replace_elem, (hred e).2⟩, ?_, ?_⟩
  · simp only [removeUnlink, hx, root?_node, hy, hyfoc.node, he, bind_eq_bind, bind_some]
  · simp [Path.toList_plug, hbefore]
  · simp [Path.plug_append, Path.toList_plug, Frame.fill, hbefore]

/-- `rb_remove` of a node of the tree: it returns, and what is left is a
red-black tree of the other nodes in their order. -/
theorem rbRemove_spec (h : Focus s [] t) (hb : Balanced t m) (hc : t.color = .black) (hx : x ∈ t.toList)
    (hfuel : 2 * t.toList.length + 1 < fuel) :
    ∃ s' t' A B, rbRemove fuel s x = some s' ∧ Focus s' [] t' ∧ (∃ m', Balanced t' m') ∧
      t'.color = .black ∧ s'.size = s.size - 1 ∧ t.toList = A ++ x :: B ∧ t'.toList = A ++ B := by
  obtain ⟨k, c, l, r, rfl⟩ := Path.exists_plug_of_mem hx
  have hfoc : Focus s k (.node c l x r) := by
    have := focus_plug_iff.mpr h
    simpa using this
  have hlen := Path.toList_plug k (.node c l x r)
  have hrlen : r.toList.length < fuel := by
    have := congrArg List.length hlen
    simp only [toList_node, length_append, length_cons] at this
    omega
  obtain ⟨yc, xp, s1, k1, t1, n, A, B, he, hfoc1, hxp, hsz, hblack, hred, hA, hB⟩ :=
    removeUnlink_spec hfoc hb hc hrlen
  let s2 : RbTree α := { s1 with size := s1.size - 1 }
  have hfoc2 : Focus s2 k1 t1 := ⟨hfoc1.path, hfoc1.tree, hfoc1.nodup⟩
  cases yc with
  | black =>
    obtain ⟨bk, bt⟩ := hblack rfl
    have hinv : RemoveInv s2 k1 t1 t1.root? xp (A ++ B) (s.size - 1) :=
      ⟨hfoc2, rfl, fun _ => hxp, ⟨n, bk, bt⟩, hB, by simp [s2, hsz]⟩
    have hmeasure : removeMeasure k1 t1 < fuel := by
      have h1 := Path.length_le k1
      have h2 := congrArg List.length hB
      have h3 := congrArg List.length hA
      rw [Path.toList_plug] at h2
      simp only [length_append, length_cons] at h2 h3
      simp only [removeMeasure]
      split <;> omega
    obtain ⟨s', t', hfix, hfoc', hbal, hcol, hL, hsz'⟩ := removeFixup_spec hinv hmeasure
    refine ⟨s', t', A, B, ?_, hfoc', hbal, hcol, hsz', hA, hL⟩
    simp only [rbRemove, he, bind_eq_bind, bind_some, if_true]
    exact hfix
  | red =>
    obtain ⟨bk, bt, ht⟩ := hred rfl
    refine ⟨s2, Path.plug k1 t1, A, B, ?_, ?_, bk.plug bt (fun _ => ht), bk.color_plug (fun _ => ht),
      by simp [s2, hsz], hA, hB⟩
    · simp [rbRemove, he, s2]
    · apply focus_plug_iff.mp; simpa using hfoc2

end Lapis.Util.RbTree
