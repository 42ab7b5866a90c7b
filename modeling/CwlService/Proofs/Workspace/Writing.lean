import CwlService.Workspace.Files

/-! # What writing leaves as it is

Writing to a path changes what stands there and nothing else. Directories are made where
nothing is, so files stay, and a path that leads somewhere goes on to do so. -/
namespace CwlService.Workspace

/-- A workspace changes, but a file stays as it is and directories stay directories. -/
structure Spares (names : List String) (w w' : Workspace) : Prop where
  scratch : w'.scratch = w.scratch
  file : ∀ text, w.entryAt names = .file text → w'.entryAt names = .file text
  directory : ∀ dir, w.entryAt dir = .directory → w'.entryAt dir = .directory

namespace Spares

variable {names : List String} {w w' w'' : Workspace}

theorem refl (names : List String) (w : Workspace) : Spares names w w :=
  ⟨rfl, fun _ h => h, fun _ h => h⟩

theorem trans (h : Spares names w w') (h' : Spares names w' w'') : Spares names w w'' where
  scratch := h'.scratch.trans h.scratch
  file := fun text ht => h'.file text (h.file text ht)
  directory := fun dir hd => h'.directory dir (h.directory dir hd)

theorem passes (h : Spares names w w') {dir path : List String} (hp : w.passes dir path = true) :
    w'.passes dir path = true := by
  induction path generalizing dir with
  | nil => rfl
  | cons n path ih =>
    simp only [Workspace.passes, Bool.and_eq_true, Bool.or_eq_true] at hp ⊢
    refine ⟨?_, ih hp.2⟩
    rcases hp.1 with hn | hd
    · exact .inl hn
    · right
      cases hentry : w.entryAt dir with
      | directory => rw [h.directory dir hentry]
      | file text => rw [hentry] at hd; cases hd
      | nothing => rw [hentry] at hd; cases hd

end Spares

/-! ## One entry at a time -/

/-- What is listed under names. -/
def listed (w : Workspace) (names : List String) : Option (List String × Option String) :=
  w.files.find? fun f => f.1 == names

variable {w w' : Workspace} {names dir : List String} {p : Path} {text : String}

theorem entryAt_eq (w : Workspace) (names) :
    w.entryAt names = match w.listed names with
      | some (_, some text) => .file text
      | some (_, none) => .directory
      | none =>
        if names.isEmpty || w.files.any fun f => names.isPrefixOf f.1 then .directory else .nothing :=
  rfl

/-- An entry is kept if it is listed as before, and all names that were listed still are. -/
theorem entryAt_of_listed (hlisted : w'.listed names = w.listed names)
    (hnames : ∀ f ∈ w.files, ∃ f' ∈ w'.files, f'.1 = f.1) (h : w.entryAt names ≠ .nothing) :
    w'.entryAt names = w.entryAt names := by
  rw [entryAt_eq, entryAt_eq, hlisted]
  rw [entryAt_eq] at h
  split
  · rfl
  · rfl
  · rename_i hnone
    rw [hnone] at h
    dsimp only at h
    split at h
    · rename_i habove
      rw [if_pos habove, if_pos]
      rcases Bool.or_eq_true_iff.mp habove with hempty | hbelow
      · rw [hempty]; rfl
      · obtain ⟨f, hf, hpre⟩ := List.any_eq_true.mp hbelow
        obtain ⟨f', hf', heq⟩ := hnames f hf
        refine Bool.or_eq_true_iff.mpr (.inr (List.any_eq_true.mpr ⟨f', hf', ?_⟩))
        rw [heq]
        exact hpre
    · exact absurd rfl h

theorem file_of_listed (hlisted : w'.listed names = w.listed names)
    (h : w.entryAt names = .file text) : w'.entryAt names = .file text := by
  rw [entryAt_eq] at h
  rw [entryAt_eq, hlisted]
  split at h
  · exact h
  · cases h
  · split at h <;> cases h

theorem spares_of_listed (hscratch : w'.scratch = w.scratch)
    (hnames : ∀ f ∈ w.files, ∃ f' ∈ w'.files, f'.1 = f.1)
    (hfile : w.entryAt names ≠ .nothing → w'.listed names = w.listed names)
    (hdir : ∀ dir, w.entryAt dir = .directory → w'.listed dir = w.listed dir) : Spares names w w' where
  scratch := hscratch
  file := by
    intro text ht
    have hthere : w.entryAt names ≠ .nothing := by rw [ht]; exact nofun
    exact file_of_listed (hfile hthere) ht
  directory := by
    intro dir hd
    have hthere : w.entryAt dir ≠ .nothing := by rw [hd]; exact nofun
    rw [entryAt_of_listed (hdir dir hd) hnames hthere, hd]

/-! ## Files -/

theorem listed_write (hne : names ≠ p.flat) : (w.write p text).listed names = w.listed names := by
  have hlast : (p.flat == names) = false := by simpa using Ne.symm hne
  simp only [listed, write, List.find?_append, List.find?_filter, List.find?_cons, hlast, List.find?_nil,
    Option.or_none]
  congr 1
  funext f
  by_cases hf : f.1 = names
  · simp [hf, hne]
  · simp [hf]

theorem write_spares (text : String) (hne : names ≠ p.flat) (hdir : w.entryAt p.flat ≠ .directory) :
    Spares names w (w.write p text) := by
  refine spares_of_listed rfl (fun f hf => ?_) (fun _ => listed_write hne) fun dir hd => ?_
  · by_cases heq : f.1 = p.flat
    · exact ⟨(p.flat, some text), by simp [write], heq.symm⟩
    · exact ⟨f, by simp [write, hf, heq], rfl⟩
  · exact listed_write fun heq => hdir (heq ▸ hd)

theorem overwrite_spares (position : Nat) (bytes : List UInt8) (hne : names ≠ p.flat) :
    Spares names w (w.overwrite p position bytes) := by
  unfold overwrite
  split
  · rename_i hfile
    exact write_spares _ hne (by rw [hfile]; exact nofun)
  · exact .refl names w

/-! ## Directories -/

theorem ensure_spares (names : List String) (w : Workspace) (dir : List String) :
    Spares names w (w.ensure dir) := by
  unfold ensure
  split
  · rename_i hnothing
    have hlisted : ∀ n, w.entryAt n ≠ .nothing →
        ({ w with files := w.files ++ [(dir, none)] } : Workspace).listed n = w.listed n := by
      intro n hn
      have hne : (dir == n) = false := by
        simpa using fun heq : dir = n => hn (heq ▸ hnothing)
      simp [listed, List.find?_append, hne]
    refine spares_of_listed rfl (fun f hf => ⟨f, by simp [hf], rfl⟩) (hlisted names) fun d hd => ?_
    exact hlisted d (by rw [hd]; exact nofun)
  · exact .refl names w

theorem makeThrough_spares (names : List String) (w : Workspace) (dir path : List String) :
    Spares names w (w.makeThrough dir path).1 := by
  induction path generalizing w dir with
  | nil =>
    unfold makeThrough
    split
    · exact .refl names w
    · exact ensure_spares names w dir
  | cons n path ih =>
    unfold makeThrough
    split
    · exact .refl names w
    · refine .trans ?_ (ih _ _)
      split
      · exact ensure_spares names w dir
      · exact .refl names w

theorem makeDirectory_spares (names : List String) (w : Workspace) (path : List String) :
    Spares names w (w.makeDirectory path).1 :=
  makeThrough_spares names w [] _

end CwlService.Workspace
