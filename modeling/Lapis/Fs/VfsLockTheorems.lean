/-
Lapis.Fs.VfsLockTheorems — the locks of the VFS.

Every call takes one lock at a time, except `vfs_unmount`, which holds `vfs_list_lock` while it looks up
the vnode below the mount; the lookup takes the lock again (`vfs_resolve_mount`). So the calls are orderly
(Lapis.Lib.Locking), but for a `vfs_unmount` of a mount other than "/". A lookup ends unless a link sends
`strtok` to freed memory, which takes a link whose text ends with a slash: `Fits` counts the rounds that
are left to its loop.
-/
import Lapis.Fs.VfsLocks
import Lapis.Fs.VfsLookupTheorems

namespace Lapis.Fs.Mounts

open Function List Lib
open Lapis.Lib.Locked (acquire release call get modify attempt)
open Util
open Lapis.Fs.Vfs (place Clean strtok_place MAX_SYMLINK_DEPTH betterMount)

variable {γ : Type} {E U : Prop} {A : VfsLock → Prop} {s : MountState γ} {ops : FsOps γ} {path : Str}

/-! ## Vnodes -/

section

variable (hA : ∀ p, A (.vnode p))

include hA

theorem vnodeRef_orderly (p : Nat) : Orderly E A (vnodeRef p) s fun _ => True := by
  unfold vnodeRef
  split
  · exact .pure trivial
  · exact .acquire (hA p) (.modify_bind (.release (.pure trivial)))

theorem vnodeUnref_orderly (p : Nat) : Orderly E A (vnodeUnref p) s fun _ => True := by
  unfold vnodeUnref
  split
  · exact .pure trivial
  · exact .acquire (hA p) (.modify_bind (.release (.pure trivial)))

theorem crossMount_orderly (found : Nat) : Orderly E A (crossMount found) s fun _ => True := by
  refine .get_bind ?_
  split
  · exact .pure trivial
  · refine .bind (vnodeUnref_orderly hA found) fun _ _ _ => .get_bind ?_
    exact .bind (vnodeRef_orderly hA _) fun _ _ _ => .pure trivial

theorem useResolved_orderly (found resolved : Nat) :
    Orderly E A (useResolved found resolved) s fun _ => True := by
  unfold useResolved
  split
  · exact .pure trivial
  · exact .bind (vnodeUnref_orderly hA found) fun _ _ _ => vnodeRef_orderly hA resolved

theorem enterRoot_orderly (root : Nat) : Orderly E A (enterRoot root) s fun _ => True := by
  refine .bind (vnodeRef_orderly hA root) fun _ _ _ => .get_bind ?_
  split
  · exact .pure trivial
  · refine .bind (vnodeUnref_orderly hA root) fun _ _ _ => ?_
    exact .bind (vnodeRef_orderly hA _) fun _ _ _ => .pure trivial

end

/-! ## Lookups -/

/-- What is left of a path behind its mount. -/
theorem vfsResolveMount_orderly (hA : A .list) (path : Str) :
    Orderly E A (vfsResolveMount path) s fun r => ∀ v rel, r = .ok (v, rel) → rel <:+ path := by
  refine .acquire hA (.get_bind (.release (.get_bind ?_)))
  have hsuffix : ∀ len, (path.drop len).dropWhile (· = slash) <:+ path := fun len =>
    (dropWhile_suffix _).trans (drop_suffix len path)
  split
  · case _ v len _ =>
    refine .pure fun v rel h => ?_
    cases h
    exact hsuffix len
  · split
    · split
      · refine .pure fun v rel h => ?_
        cases h
        exact hsuffix 1
      · exact .pure nofun
    · exact .pure nofun

/-- The loop has rounds enough for the rest of the path. `U` says when the rest may end with a slash. -/
def Fits (U : Prop) (rounds : Nat) (component : Option Str) (next : Strtok) : Prop :=
  match component with
  | none => 0 < rounds ∧ (next.free = .null ∨ next.free = .dangling ∧ U)
  | some _ => ∃ rest, next = place rest ∧ (rest.getD []).length + 2 ≤ rounds ∧ (Clean rest ∨ U)

theorem fits_of_place (rounds : Nat) (rest : Option Str) (h : (rest.getD []).length + 1 ≤ rounds)
    (hclean : Clean rest ∨ U) :
    ∃ component next, strtok (place rest) = some (component, next) ∧ Fits U rounds component next := by
  rcases strtok_place rest with ⟨next, htok, -, hnull, hdangling⟩ | ⟨token, rest', htok, -, hlt, hiff⟩
  · refine ⟨none, next, htok, Nat.lt_of_lt_of_le (Nat.succ_pos _) h, ?_⟩
    by_cases hc : Clean rest
    · exact .inl (hnull hc)
    · exact .inr ⟨hdangling hc, hclean.resolve_left hc⟩
  · exact ⟨some token, place rest', htok, rest', rfl, Nat.le_trans (Nat.succ_le_succ hlt) h,
      hclean.imp_left hiff.mpr⟩

/-- What `vfs_lookup_internal` does with the vnode of a component keeps the loop going. -/
def Follows (E : Prop) (A : VfsLock → Prop) (next : Strtok)
    (m : VfsM γ (Except Int Nat × Strtok)) : Prop :=
  ∀ s, Orderly E A m s fun x => ∀ r, x.1 = .ok r →
    x.2 = next ∨ x.2 = .null ∨ x.2 = .dangling ∧ E

theorem lookupLoop_orderly {follow : Nat → Strtok → VfsM γ (Except Int Nat × Strtok)}
    (hA : ∀ p, A (.vnode p)) (hfollow : ∀ v next, Follows E A next (follow v next)) {rounds : Nat}
    {current : Nat} {component : Option Str} {next : Strtok} (hfits : Fits U rounds component next) :
    Orderly E A (lookupLoop ops follow rounds current component next) s fun x => x.2.free = x.2 ∧
      ∀ r, x.1 = .ok r → x.2 = .null ∨ x.2 = .dangling ∧ U := by
  have hfree : ∀ next : Strtok, next.free.free = next.free := by rintro (_ | _ | _) <;> rfl
  induction rounds generalizing current component next s with
  | zero =>
    cases component with
    | none => exact absurd hfits.1 (Nat.lt_irrefl 0)
    | some c =>
      obtain ⟨rest, -, hle, -⟩ := hfits
      omega
  | succ rounds ih =>
    cases component with
    | none => exact .pure ⟨hfree next, fun r _ => hfits.2⟩
    | some c =>
    have hfail : ∀ (e : Int) (next : Strtok) (s : MountState γ), Orderly E A (do
        vnodeUnref current
        pure (.error e, next.free)) s fun x : Except Int Nat × Strtok => x.2.free = x.2 ∧
          ∀ r, x.1 = .ok r → x.2 = .null ∨ x.2 = .dangling ∧ U :=
      fun e next s => .bind (vnodeUnref_orderly hA current) fun _ _ _ => .pure ⟨hfree next, nofun⟩
    refine .get_bind ?_
    split
    · exact hfail _ _ s
    split
    · exact hfail _ _ s
    refine .call_bind ?_
    split
    · exact hfail _ _ _
    refine .bind (crossMount_orderly hA _) fun found _ _ => ?_
    refine .bind (hfollow found next _) fun x s' hx => ?_
    obtain ⟨res, next'⟩ := x
    cases res with
    | error e => exact .bind (vnodeUnref_orderly hA found) fun _ _ _ => hfail e next' _
    | ok resolved =>
    refine .bind (useResolved_orderly hA found resolved) fun _ _ _ => ?_
    refine .bind (vnodeUnref_orderly hA current) fun _ s'' _ => ?_
    obtain ⟨rest, rfl, hle, hclean⟩ := hfits
    obtain ⟨component', after, htok, hfits'⟩ :=
      fits_of_place rounds _ (Nat.le_of_succ_le_succ hle) hclean
    rcases hx resolved rfl with rfl | rfl | ⟨rfl, hE⟩
    · refine .attempt_bind (fun hnone => ?_) fun y hy => ?_
      · simp [htok] at hnone
      · rw [htok] at hy
        cases hy
        exact ih hfits'
    · -- the link's own tokens are used up
      refine .attempt_bind nofun fun y hy => ?_
      cases hy
      exact ih ⟨Nat.lt_of_lt_of_le (Nat.succ_pos _) (Nat.le_of_succ_le_succ hle), .inl rfl⟩
    · exact .attempt_bind (fun _ => hE) nofun

/-- A lookup, whatever is done with the vnodes on its way. -/
theorem lookupIn_orderly {follow : Nat → Strtok → VfsM γ (Except Int Nat × Strtok)} (hlist : A .list)
    (hA : ∀ p, A (.vnode p)) (hfollow : ∀ v next, Follows E A next (follow v next))
    (hclean : path.getLast? = some slash → U) (next : Strtok) :
    Orderly E A (lookupIn ops follow path next) s fun x => ∀ r, x.1 = .ok r →
      x.2 = next ∨ x.2 = .null ∨ x.2 = .dangling ∧ U := by
  refine .bind (vfsResolveMount_orderly hlist path) fun r s hr => ?_
  cases r with
  | error e => exact .pure nofun
  | ok x =>
  obtain ⟨v, rel⟩ := x
  refine .get_bind ?_
  dsimp only
  split
  · exact .bind (vnodeRef_orderly hA _) fun _ _ _ => .pure fun _ _ => .inl rfl
  · case _ hrel =>
    split
    · exact .pure nofun
    refine .bind (enterRoot_orderly hA _) fun current s' _ => ?_
    have hrest : Clean (some rel) ∨ U := by
      by_cases hlast : path.getLast? = some slash
      · exact .inr (hclean hlast)
      · refine .inl fun s hs => ?_
        cases hs
        obtain ⟨front, hfront⟩ := hr v rel rfl
        rw [← hfront, List.getLast?_append_of_ne_nil front hrel] at hlast
        exact ⟨hrel, hlast⟩
    obtain ⟨component, after, htok, hfits⟩ :=
      fits_of_place _ (some rel) (Nat.le_refl (rel.length + 1)) hrest
    refine .attempt_bind (fun hnone => ?_) fun y hy => ?_
    · simp [show strtok (.at rel) = _ from htok] at hnone
    · rw [show strtok (.at rel) = _ from htok] at hy
      cases hy
      exact (lookupLoop_orderly hA hfollow hfits).mono (fun _ => id) fun x hx r hr => .inr (hx.2 r hr)

/-- A lookup that follows no links. -/
theorem vfsLookupInternal_plain (hlist : A .list) (hA : ∀ p, A (.vnode p)) (left : Nat) (next : Strtok)
    (hclean : path.getLast? = some slash → E) :
    Follows E A next (vfsLookupInternal ops left path false next) := by
  have hstay : ∀ (v : Nat) (next : Strtok), Follows (γ := γ) E A next (pure (.ok v, next)) :=
    fun _ _ _ => .pure fun _ _ => .inl rfl
  intro s
  match left with
  | 0 => exact .pure nofun
  | 1 => exact lookupIn_orderly hlist hA hstay hclean next
  | left + 2 => exact lookupIn_orderly hlist hA hstay hclean next

/-- No link has a text that ends with a slash. -/
def CleanLinks (ops : FsOps γ) : Prop :=
  ∀ v s target s', ops.readlink v s = (.ok target, s') → target.getLast? ≠ some slash

theorem vfsFollowSymlink_follows (hlist : A .list) (hA : ∀ p, A (.vnode p)) (left v : Nat) (next : Strtok) :
    Follows (¬ CleanLinks ops) A next
      (vfsFollowSymlink ops (fun target => vfsLookupInternal ops left target false) v next) := by
  intro s
  refine .get_bind ?_
  split
  · exact .pure fun _ _ => .inl rfl
  split
  · exact .pure nofun
  refine .call_bind ?_
  split
  · exact .pure nofun
  · case _ target htarget =>
    exact vfsLookupInternal_plain hlist hA left next
      (fun hlast hclean => hclean v s target _ (Prod.ext htarget rfl) hlast) _

theorem vfsLookup_orderly (hlist : A .list) (hA : ∀ p, A (.vnode p)) (path : Str) (next : Strtok) :
    Orderly (¬ CleanLinks ops) A (vfsLookup ops path next) s fun _ => True :=
  (lookupIn_orderly (U := True) hlist hA
    (fun v next => vfsFollowSymlink_follows hlist hA 8 v next) (fun _ => trivial) next).mono
    (fun _ => id) fun _ _ => trivial

/-! ## Drivers -/

theorem vfsRegisterDriver_orderly (hA : A .driverList) (driver : Nat) :
    Orderly E A (vfsRegisterDriver driver) s fun _ => True := by
  refine .get_bind ?_
  split
  · exact .pure trivial
  · refine .acquire hA (.get_bind ?_)
    split
    · exact .release (.pure trivial)
    · exact .modify_bind (.release (.pure trivial))

theorem vfsUnregisterDriver_orderly (hA : A .driverList) (id : Nat) :
    Orderly E A (vfsUnregisterDriver id) s fun _ => True := by
  refine .acquire hA (.get_bind ?_)
  split
  · exact .modify_bind (.release (.pure trivial))
  · exact .release (.pure trivial)

theorem vfsFindDriverByName_orderly (hA : A .driverList) (name : Str) :
    Orderly E A (vfsFindDriverByName name) s fun _ => True := by
  refine .acquire hA (.get_bind ?_)
  split <;> exact .release (.pure trivial)

/-! ## Mounts -/

theorem vfsAppend_orderly (hA : A .list) (v : Nat) : Orderly E A (vfsAppend v) s fun _ => True :=
  .acquire hA (.modify_bind (.release (.pure trivial)))

theorem unmountFs_orderly (v : Nat) : Orderly E A (unmountFs ops v) s fun _ => True := by
  refine .get_bind ?_
  split
  · exact fun _ => ⟨rfl, trivial⟩
  · exact .pure trivial

theorem dropMount_orderly (hA : ∀ p, A (.vnode p)) (v : Nat) :
    Orderly E A (dropMount ops v) s fun _ => True :=
  .bind (unmountFs_orderly v) fun _ _ _ => .get_bind
    (.bind (vnodeUnref_orderly hA _) fun _ _ _ => .pure trivial)

theorem vfsMount_orderly (hlist : A .list) (hdriver : A .driverList) (hA : ∀ p, A (.vnode p))
    (fstype path : Str) (next : Strtok) :
    Orderly (¬ CleanLinks ops) A (vfsMount ops fstype path next) s fun _ => True := by
  have happend : ∀ (v : Nat) (s : MountState γ), Orderly (¬ CleanLinks ops) A (do
      let _ ← vfsAppend v
      pure v) s fun _ => True :=
    fun v s => .bind (vfsAppend_orderly hlist v) fun _ _ _ => .pure trivial
  refine .bind (vfsFindDriverByName_orderly hdriver fstype) fun driver s _ => ?_
  split
  · exact .pure trivial
  refine .call_bind ?_
  obtain ⟨res, v⟩ := (ops.mount driver path s).1
  dsimp only
  split
  · exact .pure trivial
  refine .modify_bind (.get_bind ?_)
  split
  · exact .bind (unmountFs_orderly _) fun _ _ _ => .pure trivial
  split
  · exact happend _ _
  refine .bind (vfsLookup_orderly hlist hA path next) fun x s _ => ?_
  obtain ⟨res, next'⟩ := x
  cases res with
  | error e =>
    refine .get_bind ?_
    split
    · exact happend _ _
    · exact dropMount_orderly hA _
  | ok mountPoint =>
    refine .get_bind ?_
    split
    · exact .bind (vnodeUnref_orderly hA mountPoint) fun _ _ _ => dropMount_orderly hA _
    · refine .modify_bind ?_
      exact .bind (vnodeUnref_orderly hA mountPoint) fun _ _ _ => happend _ _

/-- What is not mounted, and what is mounted at "/", is unmounted without a lookup. -/
theorem vfsUnmount_orderly (hlist : A .list) (hA : ∀ p, A (.vnode p)) (next : Strtok)
    (h : path = [slash] ∨ mountedAt s path = none) :
    Orderly E A (vfsUnmount ops path next) s fun _ => True := by
  have hvnode : ∀ l', (∃ p, l' = VfsLock.vnode p) → A l' ∧ l' ≠ .list := by
    rintro l' ⟨p, rfl⟩
    exact ⟨hA p, nofun⟩
  refine .acquire hlist (.get_bind ?_)
  split
  · exact .release (.pure trivial)
  · case _ v hv =>
    obtain rfl : path = [slash] := h.resolve_right (by rw [hv]; nofun)
    have hleave : Orderly E (fun l' => ∃ p, l' = VfsLock.vnode p) (leaveMountPoint ops [slash] next) s
        fun _ => True := .pure trivial
    refine .bind hleave hvnode fun _ s _ => ?_
    refine .bind (unmountFs_orderly v) hvnode fun _ s _ => .modify_bind (.get_bind ?_)
    refine .bind (vnodeUnref_orderly (fun p => ⟨p, rfl⟩) _) hvnode fun _ s _ => ?_
    exact .release (.pure trivial)

/-- Any other mount is unmounted with a lookup inside the critical section. -/
theorem vfsUnmount_deadlock (ops : FsOps γ) (next : Strtok) {v : Nat} (hpath : path ≠ [slash])
    (h : mountedAt s path = some v) : vfsUnmount ops path next s (fun _ => false) = .deadlock .list := by
  unfold vfsUnmount
  rw [acquire_bind _ s rfl]
  have hresolve : vfsResolveMount path s (update (fun _ => false) VfsLock.list true) = .deadlock .list :=
    acquire_bind_deadlock _ s (update_self ..)
  have hlookup : vfsLookup ops path next s (update (fun _ => false) VfsLock.list true) =
      .deadlock .list := bind_deadlock _ hresolve
  have hleave : leaveMountPoint ops path next s (update (fun _ => false) VfsLock.list true) =
      .deadlock .list := by
    unfold leaveMountPoint
    rw [if_neg hpath]
    exact bind_deadlock _ hlookup
  rw [Lib.get_bind, h]
  exact bind_deadlock _ hleave

/-! ## All calls -/

/-- A call waits only for locks that were held when it was made, returns with exactly these held, and
does end unless a link's text sends `strtok` to freed memory. -/
def Disciplined (ops : FsOps γ) (next : Strtok) (op : LockCall) (s : MountState γ) : Prop :=
  ∀ held, match runCall ops next op s held with
    | .returned (_, _, held') => held' = held
    | .deadlock l => held l = true
    | .endless => ¬ CleanLinks ops

/-- A call is no `vfs_unmount` of a mount other than "/". -/
def NoNestedLookup (op : LockCall) (s : MountState γ) : Prop :=
  match op with
  | .unmount path => path = [slash] ∨ mountedAt s path = none
  | _ => True

theorem runCall_orderly (ops : FsOps γ) (next : Strtok) (op : LockCall) (h : NoNestedLookup op s) :
    Orderly (¬ CleanLinks ops) (fun _ => True) (runCall ops next op) s fun _ => True := by
  cases op with
  | mount fstype path =>
    exact .bind (vfsMount_orderly trivial trivial (fun _ => trivial) fstype path next)
      fun _ _ _ => .pure trivial
  | unmount path =>
    exact .bind (vfsUnmount_orderly trivial (fun _ => trivial) next h) fun _ _ _ => .pure trivial
  | append v => exact .bind (vfsAppend_orderly trivial v) fun _ _ _ => .pure trivial
  | lookup path =>
    exact .bind (vfsLookup_orderly trivial (fun _ => trivial) path next) fun _ _ _ => .pure trivial
  | resolveMount path =>
    exact .bind (vfsResolveMount_orderly trivial path) fun _ _ _ => .pure trivial
  | registerDriver driver =>
    exact .bind (vfsRegisterDriver_orderly trivial driver) fun _ _ _ => .pure trivial
  | unregisterDriver id =>
    exact .bind (vfsUnregisterDriver_orderly trivial id) fun _ _ _ => .pure trivial

/-- A call keeps to the discipline if and only if it is no `vfs_unmount` of a mount other than "/". -/
theorem vfs_lock_discipline_iff (ops : FsOps γ) (next : Strtok) (op : LockCall) (s : MountState γ) :
    Disciplined ops next op s ↔ NoNestedLookup op s := by
  constructor
  · intro h
    cases op with
    | unmount path =>
      by_contra hno
      obtain ⟨hpath, hmounted⟩ := not_or.mp hno
      obtain ⟨v, hv⟩ := Option.ne_none_iff_exists'.mp hmounted
      have hdead := h fun _ => false
      rw [show runCall ops next (.unmount path) s (fun _ => false) = .deadlock .list from
        bind_deadlock _ (vfsUnmount_deadlock ops next hpath hv)] at hdead
      cases hdead
    | _ => trivial
  · intro h held
    have hcall := runCall_orderly ops next op h held
    revert hcall
    cases runCall ops next op s held with
    | returned x => exact fun hcall => hcall.1
    | deadlock l => exact fun hcall => hcall.2
    | endless => exact id

/-- File systems at "/" and at "/mnt", with their root vnodes. -/
def twoMounts : MountState Unit where
  vnodes p := ⟨if p = 8192 then str "/" else str "/mnt", .dir, true, true, 0, 1⟩
  mounts v := ⟨1, if v = 4096 then 8192 else 16384, true⟩
  drivers _ := ⟨1, str "ramfs", true⟩
  vfsList := [4096, 12288]
  driverList := [1]
  nextDriverId := 2
  data := ()

/-- Directories without entries. -/
def emptyDirs : FsOps Unit where
  mount _ _ s := ((-EINVAL, 0), s)
  unmount _ s := ((), s)
  lookup _ _ s := (.error ENOENT, s)
  readlink _ s := (.error EINVAL, s)

/-- `vfs_unmount("/mnt")` waits for the lock it holds. -/
theorem vfs_unmount_deadlocks : mountedAt twoMounts (str "/mnt") = some 12288 ∧
      runCall emptyDirs .null (.unmount (str "/mnt")) twoMounts (fun _ => false) = .deadlock .list ∧
      ¬ Disciplined emptyDirs .null (.unmount (str "/mnt")) twoMounts := by
  have hmounted : mountedAt twoMounts (str "/mnt") = some 12288 := by decide +kernel
  have hrun : runCall emptyDirs .null (.unmount (str "/mnt")) twoMounts (fun _ => false) = .deadlock .list :=
    bind_deadlock _ (vfsUnmount_deadlock emptyDirs .null (by decide +kernel) hmounted)
  refine ⟨hmounted, hrun, fun h => ?_⟩
  have hdead := h fun _ => false
  simp [hrun] at hdead

end Lapis.Fs.Mounts
