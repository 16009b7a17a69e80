import Xv6.Proofs.NamexWalk
import Xv6.Proofs.PathElems

/-!
# Path resolution

`namex` goes from directory to directory, one element of the path at a time. Over a tree
that is well formed it comes to a left fold of `dirlookup` over the elements; as
`nameiparent` it stops before the last one and leaves its name.
-/

namespace Xv6.Ref.Sysfile

open Xv6.Lib
open Xv6.Ref.Inodes (Iptr Devsw FilesInv cname dirents deInum dirEntry tinySb)

variable {N : Nat} {sb : Superblock} {start : Nat} {devsw : Nat → Devsw} {pick : Nat} {p : Fin N}
  {s s₀ : Sys N} {held : List (Iptr × Nat)} {ip : Iptr} {n : Nat} {d : Disk}

/-! ## The tree -/

/-- A directory tree that is in order: directories have whole entries, and an entry in use
names an inode in use. -/
structure Tree (sb : Superblock) (d : Disk) : Prop where
  root : ROOTINO < sb.ninodes
  rootType : (d.dinode sb ROOTINO).type = T_DIR
  rootLink : (d.dinode sb ROOTINO).nlink ≠ 0
  whole : ∀ n < sb.ninodes, (d.dinode sb n).type = T_DIR → (d.dinode sb n).size.toNat % 16 = 0
  entry : ∀ n < sb.ninodes, (d.dinode sb n).type = T_DIR →
    ∀ de ∈ dirents ((d.dinode sb n).content d), deInum de ≠ 0 → deInum de < sb.ninodes ∧
      (d.dinode sb (deInum de)).type ≠ 0 ∧ (d.dinode sb (deInum de)).nlink ≠ 0

/-- The inode that a name in the directory `n` leads to. -/
def look (sb : Superblock) (d : Disk) (n : Nat) (name : Name) : Option Nat :=
  if (d.dinode sb n).type = T_DIR then dirEntry ((d.dinode sb n).content d) name else none

/-- The inode that a list of names leads to. -/
def resolve (sb : Superblock) (d : Disk) (n : Nat) (names : List Name) : Option Nat :=
  names.foldlM (look sb d) n

/-- The directory that the last of the names would be in, with this name. -/
def resolveParent (sb : Superblock) (d : Disk) (n : Nat) (names : List Name) :
    Option (Nat × Name) :=
  match names.getLast? with
  | none => none
  | some last => (resolve sb d n names.dropLast).bind fun m =>
      if (d.dinode sb m).type = T_DIR then some (m, last) else none

theorem resolve_cons (n : Nat) (name : Name) (rest : List Name) :
    resolve sb d n (name :: rest) = (look sb d n name).bind fun m => resolve sb d m rest := by
  rw [resolve, List.foldlM_cons]
  rfl

theorem resolveParent_single (n : Nat) (name : Name) :
    resolveParent sb d n [name] = if (d.dinode sb n).type = T_DIR then some (n, name) else none :=
  rfl

theorem resolveParent_cons (n : Nat) (name : Name) {rest : List Name} (hne : rest ≠ []) :
    resolveParent sb d n (name :: rest) =
      (look sb d n name).bind fun m => resolveParent sb d m rest := by
  obtain ⟨x, xs, rfl⟩ := List.exists_cons_of_ne_nil hne
  simp only [resolveParent, List.getLast?_cons_cons, List.dropLast_cons_cons, resolve_cons]
  cases look sb d n name with
  | none =>
      cases (x :: xs).getLast? with
      | none => rfl
      | some last => rfl
  | some m => rfl

theorem look_notDir {name : Name} (h : (d.dinode sb n).type ≠ T_DIR) : look sb d n name = none :=
  if_neg h

theorem Tree.look (h : Tree sb d) {name : Name} {m : Nat} (hn : n < sb.ninodes)
    (hm : Sysfile.look sb d n name = some m) :
    m < sb.ninodes ∧ (d.dinode sb m).type ≠ 0 ∧ (d.dinode sb m).nlink ≠ 0 := by
  rw [Sysfile.look] at hm
  split at hm
  · next hdir =>
      obtain ⟨de, hde, rfl⟩ := Option.map_eq_some_iff.mp hm
      have hpos : deInum de ≠ 0 := by
        have := List.find?_some hde
        simp only [Inodes.isEntry, ne_eq, decide_eq_true_eq] at this
        exact this.1
      exact h.entry n hn hdir de (List.mem_of_find?_eq_some hde) hpos
  · cases hm

/-! ## `dirlookup` on the tree -/

/-- The inode cache has fewer than two entries that nobody uses. -/
def CacheFull (s₀ : Sys N) : Prop :=
  (Finset.univ.filter fun e => (s₀.files.icache e).ref = 0).card < 2

/-- With a reference to one inode, no entry is left. -/
theorem cacheFull_of_one {lk : Option Iptr} (h : Walk sb start p s₀ [(ip, n)] lk s)
    (hfull : ∀ e, (s.files.icache e).ref ≠ 0) : CacheFull s₀ := by
  have hsub : (Finset.univ.filter fun e => (s₀.files.icache e).ref = 0) ⊆ {ip} := by
    intro e he
    have hzero : (s₀.files.icache e).ref = 0 := (Finset.mem_filter.mp he).2
    have href := h.ref e
    rw [hzero] at href
    by_contra hne
    rw [Finset.mem_singleton] at hne
    refine hfull e (href.trans ?_)
    rw [Nat.zero_add]
    exact List.count_eq_zero.mpr (by simpa using hne)
  exact Nat.lt_of_le_of_lt (Finset.card_le_card hsub) (by simp)

variable (devsw pick) in
/-- The name is looked up, and its inode is got from the cache. -/
theorem Walk.dirlookup (ht : Tree sb s₀.files.disk) (name : List UInt8)
    (h : Walk sb start p s₀ [(ip, n)] (some ip) s)
    (hdir : (s₀.files.disk.dinode sb n).type = T_DIR) :
    match look sb s₀.files.disk n name with
    | none => alone sb devsw pick p (dirlookup ip name) s = .ok s none
    | some m =>
        (alone sb devsw pick p (dirlookup ip name) s = .panic (.fs .iget) ∧ CacheFull s₀) ∨
        ∃ s' e off, alone sb devsw pick p (dirlookup ip name) s = .ok s' (some (e, off)) ∧
          Walk sb start p s₀ [(e, m), (ip, n)] (some ip) s' := by
  have hmem : (ip, n) ∈ [(ip, n)] := List.mem_cons_self
  have hdin := h.din hmem
  have hlk := h.locked ip rfl
  obtain ⟨hlt, hdisk, -⟩ := h.inv.cache ip hlk
  rw [h.inum _ hmem] at hlt
  have hspan := (h.inv.block.spans (s.files.icache ip).inum).le
  rw [h.inv.table hlk] at hspan
  obtain ⟨r, hr, hmap⟩ := Inodes.dirlookupLoop_eq devsw h.inv hlk (by rw [hdin]; exact hdir)
    (by rw [hdin]; exact ht.whole n hlt hdir) hspan name Inodes.dirRounds 0 (by
      have hspan : (s.files.icache ip).din.size.toNat ≤ 71680 := hspan
      have hrounds : Inodes.dirRounds = 4481 := rfl
      omega)
  have hlook : look sb s₀.files.disk n name = r.map Prod.fst := by
    rw [look, if_pos hdir, hmap, hdin, h.disk]
    rfl
  have hfound : alone sb devsw pick p (perform (.lookup ip name)) s = .ok s r := by
    rw [alone_perform]
    dsimp only [opStep]
    rw [if_neg (by rw [hdin]; exact not_not.mpr hdir), hr]
    rfl
  cases r with
  | none =>
      rw [hlook]
      exact alone_bind_ok hfound
  | some x =>
      rw [hlook]
      obtain ⟨hm, htype, -⟩ := ht.look hlt hlook
      dsimp only [Option.map_some]
      have higet : (alone sb devsw pick p (perform (.iget x.1)) s = .panic (.fs .iget) ∧ _) ∨
        ∃ s' e, alone sb devsw pick p (perform (.iget x.1)) s = .ok s' e ∧ _ := h.iget hm htype
      rcases higet with ⟨hp, hfull⟩ | ⟨s', e, hok, hw⟩
      · exact Or.inl ⟨(alone_bind_ok hfound).trans (alone_bind_panic hp),
          cacheFull_of_one h hfull⟩
      · exact Or.inr ⟨s', e, x.2, (alone_bind_ok hfound).trans (alone_bind_ok hok), hw⟩

/-! ## The loop -/

/-- What `namex` returns, and how it is named by inode numbers. -/
structure Resolved (sb : Superblock) (d : Disk) (parent : Bool) (n : Nat) (names : List Name)
    (s' : Sys N) (r : Option (Iptr × Name)) : Prop where
  inode : parent = false → r.map (fun x => (s'.files.icache x.1).inum) = resolve sb d n names
  directory : parent = true →
    r.map (fun x => ((s'.files.icache x.1).inum, x.2)) = resolveParent sb d n names

theorem resolved_none {parent : Bool} {names : List Name} (hne : names ≠ [])
    (h : ∀ name rest, names = name :: rest → look sb d n name = none)
    (hlast : names.length = 1 → parent = true → (d.dinode sb n).type ≠ T_DIR) (s' : Sys N) :
    Resolved sb d parent n names s' none := by
  obtain ⟨name, rest, rfl⟩ := List.exists_cons_of_ne_nil hne
  have hnone := h name rest rfl
  refine ⟨fun _ => ?_, fun hp => ?_⟩
  · rw [resolve_cons, hnone]
    rfl
  · cases rest with
    | nil =>
        rw [resolveParent_single, if_neg (hlast rfl hp)]
        rfl
    | cons x xs =>
        rw [resolveParent_cons n name (List.cons_ne_nil x xs), hnone]
        rfl

/-- The walk goes on from the inode of the first name. -/
theorem Resolved.cons {parent : Bool} {name : Name} {rest : List Name} {m : Nat} {s' : Sys N}
    {r : Option (Iptr × Name)} (h : Resolved sb d parent m rest s' r)
    (hlook : look sb d n name = some m) (hrest : ¬ (parent = true ∧ rest = [])) :
    Resolved sb d parent n (name :: rest) s' r := by
  refine ⟨fun hp => ?_, fun hp => ?_⟩
  · rw [h.inode hp, resolve_cons, hlook]
    rfl
  · rw [h.directory hp, resolveParent_cons n name fun hc => hrest ⟨hp, hc⟩, hlook]
    rfl

/-- The loop of `namex` from an inode it has a reference to. -/
theorem namexLoop_walk (ht : Tree sb s₀.files.disk) {parent : Bool} (names : List Name) :
    ∀ {ip : Iptr} {n : Nat} {s : Sys N} (name : Name), Walk sb start p s₀ [(ip, n)] none s →
      (s₀.files.disk.dinode sb n).nlink ≠ 0 ∨ 0 < (s₀.files.icache ip).ref →
      (alone sb devsw pick p (namexLoop parent names ip name) s = .panic (.fs .iget) ∧
        CacheFull s₀) ∨
      ∃ s' r, alone sb devsw pick p (namexLoop parent names ip name) s = .ok s' r ∧
        Resolved sb s₀.files.disk parent n names s' r := by
  induction names with
  | nil =>
      intro ip n s name h hkeep
      right
      cases parent with
      | false =>
          refine ⟨s, some (ip, name), rfl, fun _ => ?_, nofun⟩
          rw [Option.map_some, h.inum (ip, n) List.mem_cons_self]
          rfl
      | true =>
          obtain ⟨s', hput, -⟩ : ∃ s', alone sb devsw pick p (iput ip) s = .ok s' () ∧
            Walk sb start p s₀ [] none s' := h.iput hkeep
          exact ⟨s', none, alone_bind_ok hput, nofun, fun _ => rfl⟩
  | cons name rest ih =>
      intro ip n s old h hkeep
      have hmem : (ip, n) ∈ [(ip, n)] := List.mem_cons_self
      obtain ⟨s₁, hlock, hw₁⟩ : ∃ s', alone sb devsw pick p (ilock ip) s = .ok s' () ∧
        Walk sb start p s₀ [(ip, n)] (some ip) s' := h.ilock hmem
      have hinode : alone sb devsw pick p (perform (.inode ip)) s₁ =
          .ok s₁ (s₀.files.disk.dinode sb n) := by
        rw [alone_perform]
        dsimp only [opStep]
        rw [hw₁.din hmem]
      rw [namexLoop, alone_bind_ok hlock, alone_bind_ok hinode]
      -- Every way out but one lets go of the inode.
      have hput : ∃ s', alone sb devsw pick p (iunlockput ip) s₁ = .ok s' () ∧
        Walk sb start p s₀ [] none s' := hw₁.iunlockput hkeep
      obtain ⟨s₂, hput, -⟩ := hput
      split
      · next hdir =>
          refine Or.inr ⟨s₂, none, alone_bind_ok hput, ?_⟩
          refine resolved_none (List.cons_ne_nil _ _) (fun _ _ _ => look_notDir hdir)
            (fun _ _ => hdir) s₂
      next hdir =>
      have hdir : (s₀.files.disk.dinode sb n).type = T_DIR := not_not.mp hdir
      split
      · next hstop =>
          obtain ⟨hp, rfl⟩ := hstop
          obtain ⟨s₃, hunlock, hw₃⟩ : ∃ s', alone sb devsw pick p (iunlock ip) s₁ = .ok s' () ∧
            Walk sb start p s₀ [(ip, n)] none s' := hw₁.iunlock
          refine Or.inr ⟨s₃, some (ip, name), alone_bind_ok hunlock, fun hf => ?_, fun _ => ?_⟩
          · rw [hp] at hf
            cases hf
          · rw [Option.map_some, hw₃.inum (ip, n) hmem, resolveParent_single, if_pos hdir]
      next hgo =>
      have hl := hw₁.dirlookup devsw pick ht name hdir
      cases hlook : look sb s₀.files.disk n name with
      | none =>
          rw [hlook] at hl
          rw [alone_bind_ok hl]
          refine Or.inr ⟨s₂, none, alone_bind_ok hput, ?_⟩
          refine resolved_none (List.cons_ne_nil _ _) ?_ ?_ s₂
          · rintro _ _ ⟨⟩
            exact hlook
          · intro hlen hp
            exact absurd ⟨hp, List.length_eq_zero_iff.mp (Nat.succ.inj hlen)⟩ hgo
      | some m =>
          rw [hlook] at hl
          rcases hl with ⟨hpanic, hfull⟩ | ⟨s₃, e, off, hok, hw₃⟩
          · exact Or.inl ⟨alone_bind_panic hpanic, hfull⟩
          rw [alone_bind_ok hok]
          dsimp only
          obtain ⟨s₄, hput₄, hw₄⟩ : ∃ s', alone sb devsw pick p (iunlockput ip) s₃ = .ok s' () ∧
            Walk sb start p s₀ [(e, m)] none s' :=
              (hw₃.perm (List.Perm.swap _ _ _)).iunlockput hkeep
          have hlt := (hw₁.live ip (hw₁.ref_pos hmem)).1
          rw [hw₁.inum _ hmem] at hlt
          rw [alone_bind_ok hput₄]
          rcases ih name hw₄ (Or.inl (ht.look hlt hlook).2.2) with hpanic | ⟨s', r, hr, hres⟩
          · exact Or.inl hpanic
          · exact Or.inr ⟨s', r, hr, hres.cons hlook hgo⟩

/-- Where a path starts. -/
def startInum (s : Sys N) (cwd : Iptr) (path : Path) : Nat :=
  if path.head? = some 47 then ROOTINO else (s.files.icache cwd).inum

/-- Nobody is at work in the file system: no inode is locked, and the references are to
inodes in use. -/
structure AtRest (sb : Superblock) (start : Nat) (s : Sys N) : Prop where
  inv : FilesInv sb start s.files
  tree : Tree sb s.files.disk
  live : ∀ e, 0 < (s.files.icache e).ref → (s.files.icache e).inum < sb.ninodes ∧
    (s.files.disk.dinode sb (s.files.icache e).inum).type ≠ 0
  lock : ∀ e, s.lock e = none

theorem AtRest.walk (h : AtRest sb start s) : Walk sb start p s [] none s :=
  ⟨h.inv, rfl, h.live, fun _ => rfl, nofun, h.lock, nofun⟩

theorem namex_walk (h : AtRest sb start s) {cwd : Iptr} (hcwd : s.cwd p = some cwd)
    (hpos : 0 < (s.files.icache cwd).ref) (path : Path) (parent : Bool) :
    (alone sb devsw pick p (namex path parent) s = .panic (.fs .iget) ∧ CacheFull s) ∨
    ∃ s' r, alone sb devsw pick p (namex path parent) s = .ok s' r ∧
      Resolved sb s.files.disk parent (startInum s cwd path) (elems path) s' r := by
  rw [namex, namexStart, startInum]
  split
  · have higet : (alone sb devsw pick p (perform (.iget ROOTINO)) s = .panic (.fs .iget) ∧ _) ∨
        ∃ s' e, alone sb devsw pick p (perform (.iget ROOTINO)) s = .ok s' e ∧ _ :=
      h.walk.iget h.tree.root (by rw [h.tree.rootType]; decide)
    rcases higet with ⟨hpanic, hfull⟩ | ⟨s₁, e, hok, hw⟩
    · refine Or.inl ⟨alone_bind_panic hpanic, ?_⟩
      rw [CacheFull, Finset.filter_false_of_mem fun e _ => hfull e]
      decide
    · rw [alone_bind_ok hok]
      exact namexLoop_walk h.tree (elems path) [] hw (Or.inl h.tree.rootLink)
  · obtain ⟨s₁, hok, hw⟩ : ∃ s', alone sb devsw pick p (perform .idupCwd) s = .ok s' cwd ∧
      Walk sb start p s [(cwd, (s.files.icache cwd).inum)] none s' := h.walk.idupCwd hcwd hpos
    rw [alone_bind_ok hok]
    exact namexLoop_walk h.tree (elems path) [] hw (Or.inr hpos)

/-! ## The buffer -/

theorem cname_cname (name : List UInt8) : cname (cname name) = cname name := by
  have hlen : (cname name).length ≤ DIRSIZ :=
    Nat.le_trans (List.takeWhile_sublist _).length_le (by rw [List.length_take]; omega)
  rw [cname, List.take_of_length_le hlen, cname, List.takeWhile_takeWhile]
  simp

theorem dirlookupLoop_cname {a b : List UInt8} (h : cname a = cname b) (fuel : Nat) :
    ∀ (f : Inodes.Files) (off : Nat), Inodes.dirlookupLoop sb devsw ip a fuel f off =
      Inodes.dirlookupLoop sb devsw ip b fuel f off := by
  have hcmp : Inodes.namecmp a = Inodes.namecmp b := by
    funext x
    rw [Inodes.namecmp, Inodes.namecmp, h]
  induction fuel with
  | zero => exact fun _ _ => rfl
  | succ fuel ih =>
      intro f off
      rw [Inodes.dirlookupLoop, Inodes.dirlookupLoop, hcmp]
      simp only [ih]

theorem alone_dirlookup_cname (name : List UInt8) (s : Sys N) :
    alone sb devsw pick p (dirlookup ip name) s =
      alone sb devsw pick p (dirlookup ip (cname name)) s := by
  have hop : opStep sb devsw pick s p (.lookup ip name) =
      opStep sb devsw pick s p (.lookup ip (cname name)) := by
    dsimp only [opStep]
    rw [dirlookupLoop_cname (cname_cname name).symm]
  rw [dirlookup, dirlookup, alone_bind, alone_bind, alone_perform, alone_perform, hop]
  cases opStep sb devsw pick s p (.lookup ip (cname name)) with
  | ok s r =>
      cases r with
      | none => rfl
      | some x => rfl
  | blocked => rfl
  | panic why => rfl

/-- Two ways to return the same: the inode, and the name in the buffer. -/
def Agree (parent : Bool) : Outcome (Sys N) (Option Iptr × List UInt8) →
    Outcome (Sys N) (Option (Iptr × Name)) → Prop
  | .ok s r, .ok s' r' => s = s' ∧ r.1 = r'.map Prod.fst ∧
      (parent = true → ∀ x, r' = some x → cname r.2 = x.2)
  | .blocked, .blocked => True
  | .panic why, .panic why' => why = why'
  | _, _ => False

theorem agree_bind {α : Type} {parent : Bool} (x : SysProg N α)
    {f : α → SysProg N (Option Iptr × List UInt8)} {g : α → SysProg N (Option (Iptr × Name))}
    (h : ∀ s a, Agree parent (alone sb devsw pick p (f a) s) (alone sb devsw pick p (g a) s))
    (s : Sys N) :
    Agree parent (alone sb devsw pick p (x >>= f) s) (alone sb devsw pick p (x >>= g) s) := by
  rw [alone_bind, alone_bind]
  cases alone sb devsw pick p x s with
  | ok s a => exact h s a
  | blocked => trivial
  | panic why => exact rfl

/-- The function with the buffer does what the one with the list of elements does. -/
theorem namexLoop_agree {parent : Bool} (fuel : Nat) :
    ∀ {path name : List UInt8} (ip : Iptr) (old : Name) (s : Sys N), (∀ c ∈ path, c ≠ 0) →
      name.length = DIRSIZ → path.length < fuel →
      Agree parent (alone sb devsw pick p (Namex.namexLoop parent fuel path name ip) s)
        (alone sb devsw pick p (namexLoop parent (elements path) ip old) s) := by
  induction fuel with
  | zero => exact fun _ _ _ _ _ h => absurd h (Nat.not_lt_zero _)
  | succ fuel ih =>
      intro path name ip old s hpath hname hlt
      rw [Namex.namexLoop]
      rcases Namex.skipelem_spec hpath hname with
        ⟨hs, he⟩ | ⟨rest, name', hs, he, hname', hempty, hless, hrest⟩
      · rw [hs, he, namexLoop]
        dsimp only
        split
        · next hp =>
            refine agree_bind (iput ip) (fun _ _ => ?_) s
            exact ⟨rfl, rfl, by rintro _ _ ⟨⟩⟩
        · next hp => exact ⟨rfl, rfl, fun hc => absurd hc hp⟩
      rw [hs, he, namexLoop]
      dsimp only
      have hput : ∀ s, Agree parent
          (alone sb devsw pick p (do iunlockput ip; pure (none, name')) s)
          (alone sb devsw pick p (do iunlockput ip; pure none) s) := by
        refine agree_bind (iunlockput ip) fun _ _ => ?_
        exact ⟨rfl, rfl, by rintro _ _ ⟨⟩⟩
      refine agree_bind (ilock ip) (fun s _ => agree_bind (perform (.inode ip)) (fun s i => ?_) s) s
      split
      · exact hput s
      by_cases hstop : parent = true ∧ rest = []
      · rw [if_pos hstop, if_pos ⟨hstop.1, hempty.mp hstop.2⟩]
        refine agree_bind (iunlock ip) (fun _ _ => ?_) s
        refine ⟨rfl, rfl, fun _ x hx => ?_⟩
        cases hx
        rfl
      · rw [if_neg hstop, if_neg fun hc => hstop ⟨hc.1, hempty.mpr hc.2⟩, alone_bind, alone_bind,
          alone_dirlookup_cname]
        cases alone sb devsw pick p (dirlookup ip (cname name')) s with
        | blocked => trivial
        | panic why => exact rfl
        | ok s found =>
            dsimp only
            cases found with
            | none => exact hput s
            | some next =>
                exact agree_bind (iunlockput ip)
                  (fun s _ => ih next.1 (cname name') s hrest hname' (by omega)) s

theorem namex_agree (s : Sys N) {path name : List UInt8} (parent : Bool)
    (hpath : ∀ c ∈ path, c ≠ 0) (hname : name.length = DIRSIZ) :
    Agree parent (alone sb devsw pick p (Namex.namex path parent name) s)
      (alone sb devsw pick p (namex path parent) s) := by
  rw [Namex.namex, namex, elems_eq hpath]
  exact agree_bind (namexStart path)
    (fun s ip => namexLoop_agree (path.length + 1) ip [] s hpath hname (Nat.lt_succ_self _)) s

variable (sb devsw pick p) in
/-- A call that returns what the one on the list of elements returns. -/
theorem namex_resolved (h : AtRest sb start s) {cwd : Iptr} (hcwd : s.cwd p = some cwd)
    (hpos : 0 < (s.files.icache cwd).ref) {path name : List UInt8} (hpath : ∀ c ∈ path, c ≠ 0)
    (hname : name.length = DIRSIZ) (parent : Bool) :
    (alone sb devsw pick p (Namex.namex path parent name) s = .panic (.fs .iget) ∧ CacheFull s) ∨
    ∃ s' r r', alone sb devsw pick p (Namex.namex path parent name) s = .ok s' r ∧
      r.1 = r'.map Prod.fst ∧ (parent = true → ∀ x, r' = some x → cname r.2 = x.2) ∧
      Resolved sb s.files.disk parent (startInum s cwd path) (elements path) s' r' := by
  have hag : Agree parent (alone sb devsw pick p (Namex.namex path parent name) s) _ :=
    namex_agree s parent hpath hname
  have hwalk : (alone sb devsw pick p (namex path parent) s = .panic (.fs .iget) ∧ _) ∨
      ∃ s' r, alone sb devsw pick p (namex path parent) s = .ok s' r ∧ _ :=
    namex_walk h hcwd hpos path parent
  rcases hwalk with ⟨hpanic, hfull⟩ | ⟨s', r', hr, hres⟩
  · rw [hpanic] at hag
    cases ho : alone sb devsw pick p (Namex.namex path parent name) s with
    | ok s' r =>
        rw [ho] at hag
        cases hag
    | blocked =>
        rw [ho] at hag
        cases hag
    | panic why =>
        rw [ho] at hag
        exact Or.inl ⟨congrArg _ hag, hfull⟩
  · rw [hr] at hag
    rw [elems_eq hpath] at hres
    cases ho : alone sb devsw pick p (Namex.namex path parent name) s with
    | ok s₁ r =>
        rw [ho] at hag
        obtain ⟨rfl, h1, h2⟩ := hag
        exact Or.inr ⟨s₁, r, r', rfl, h1, h2, hres⟩
    | blocked =>
        rw [ho] at hag
        cases hag
    | panic why =>
        rw [ho] at hag
        cases hag

def dotInode : DiskInode :=
  { DiskInode.zero with type := T_DIR, nlink := 1, size := 16 }.setAddr 0 4

def dotDisk : Disk := Inodes.oneFileDisk 6 dotInode (zeroBlock.write 0 (Inodes.mkDirent 1 dot))

theorem dotDisk_dinode {j : Nat} (hj : j < 8) :
    dotDisk.dinode (tinySb 6) j = if 1 = j then dotInode else DiskInode.zero :=
  Inodes.oneFileDisk_dinode (by decide) (by decide) hj

theorem dotDisk_dir {j : Nat} (hj : j < 8) (ht : (dotDisk.dinode (tinySb 6) j).type = T_DIR) :
    dotDisk.dinode (tinySb 6) j = dotInode := by
  rw [dotDisk_dinode hj] at ht ⊢
  split at ht
  · next h1 => rw [if_pos h1]
  · exact absurd ht (by decide)

theorem dotDisk_tree : Tree (tinySb 6) dotDisk := by
  have hroot : dotDisk.dinode (tinySb 6) ROOTINO = dotInode := dotDisk_dinode (by decide)
  refine ⟨by decide, by rw [hroot]; rfl, by rw [hroot]; decide, fun n hn ht => ?_,
    fun n hn ht de hde _ => ?_⟩
  · rw [dotDisk_dir hn ht]
    decide
  · rw [dotDisk_dir hn ht] at hde
    have hents : dirents (dotInode.content dotDisk) = [Inodes.mkDirent 1 dot] := by decide +kernel
    rw [hents, List.mem_singleton] at hde
    subst hde
    rw [show deInum (Inodes.mkDirent 1 dot) = ROOTINO from rfl, hroot]
    exact ⟨by decide, by decide, by decide⟩

theorem dotDisk_rest : AtRest (tinySb 6) 4 (Machine.boot 1 dotDisk).sys := by
  have hzero : ∀ e : Iptr, 0 < ((Machine.boot 1 dotDisk).sys.files.icache e).ref → e.val = 0 := by
    intro e he
    dsimp only [Machine.boot] at he
    split at he
    · next hz => exact hz
    · exact absurd he (Nat.lt_irrefl 0)
  have hblock : Inodes.BlockInv (tinySb 6) 4 dotDisk :=
    Inodes.oneFileDisk_blockInv (by decide) (by decide) (by decide) (Inodes.ptr_first rfl)
      (by decide) (by decide)
  refine ⟨⟨hblock, fun e he => ?_, fun e e' he he' _ => ?_⟩, dotDisk_tree, fun e he => ?_,
    fun _ => rfl⟩
  · obtain ⟨hr, hv⟩ := he
    dsimp only [Machine.boot] at hv
    rw [if_pos (hzero e hr)] at hv
    cases hv
  · exact Fin.ext ((hzero e he).trans (hzero e' he').symm)
  · have hin : ((Machine.boot 1 dotDisk).sys.files.icache e).inum = ROOTINO := by
      dsimp only [Machine.boot]
      rw [if_pos (hzero e he)]
    rw [hin]
    refine ⟨by decide, ?_⟩
    show (dotDisk.dinode (tinySb 6) ROOTINO).type ≠ 0
    rw [dotDisk_tree.rootType]
    decide

end Xv6.Ref.Sysfile
