import CwlService.Proofs.Text.Split
import CwlService.Proofs.Text.Utf8
import CwlService.Workspace.Files
import Mathlib.Data.List.TakeWhile
import Mathlib.Logic.Relation

/-! # Links and addresses

A link leads to a path without detours: the only one that is left when every detour of the
link, seen from the directory of its document, is cut out. The address of that path names the
path again, whatever characters it has, so links lead on from it as they should. -/
namespace CwlService

open List

/-! ## Detours -/

namespace Path

/-- A name that leads somewhere else, and not back. -/
def IsStep (n : String) : Prop := n ≠ "" ∧ n ≠ "." ∧ n ≠ ".."

instance (n : String) : Decidable (IsStep n) := inferInstanceAs (Decidable (_ ∧ _ ∧ _))

/-- One detour less. The parent of the root is the root. -/
inductive Shortens : List String → List String → Prop where
  | empty (before after : List String) : Shortens (before ++ "" :: after) (before ++ after)
  | here (before after : List String) : Shortens (before ++ "." :: after) (before ++ after)
  | back (before after : List String) {n : String} (h : IsStep n) :
      Shortens (before ++ n :: ".." :: after) (before ++ after)
  | top (after : List String) : Shortens (".." :: after) after

/-- Names without detours that others come to. -/
structure Normal (names short : List String) : Prop where
  shortens : Relation.ReflTransGen Shortens names short
  steps : ∀ n ∈ short, IsStep n

def keeps (n : String) : Bool := n != "" && n != "."

theorem names_ofText (s : String) : (ofText s).names = (Text.parts '/' s).filter keeps := rfl

variable {acc names short : List String} {n t : String}

theorem keeps_of_isStep (h : IsStep n) : keeps n = true := by
  simp [keeps, h.1, h.2.1]

theorem step_of_isStep (h : IsStep n) : step acc n = acc ++ [n] := by
  simp [step, h.2.2]

theorem filter_keeps (h : ∀ n ∈ names, IsStep n) : names.filter keeps = names :=
  filter_eq_self.mpr fun n hn => keeps_of_isStep (h n hn)

theorem foldl_step (h : ∀ n ∈ names, IsStep n) : names.foldl step acc = acc ++ names := by
  induction names generalizing acc with
  | nil => exact (append_nil acc).symm
  | cons n names ih =>
    obtain ⟨hn, hnames⟩ := forall_mem_cons.mp h
    rw [foldl_cons, step_of_isStep hn, ih hnames, append_assoc, singleton_append]

theorem Shortens.foldl_eq (h : Shortens names short) :
    (names.filter keeps).foldl step [] = (short.filter keeps).foldl step [] := by
  cases h with
  | empty before after => simp [keeps]
  | here before after => simp [keeps]
  | back before after hn =>
    have hup : keeps ".." = true := rfl
    simp only [filter_append, filter_cons, keeps_of_isStep hn, hup, if_true, foldl_append, foldl_cons]
    rw [step_of_isStep hn]
    simp [step]
  | top after => rfl

theorem shortens_foldl (hacc : ∀ n ∈ acc, IsStep n) (names : List String) :
    Normal (acc ++ names) ((names.filter keeps).foldl step acc) := by
  -- the names gone through so far are those of a path without detours
  induction names generalizing acc with
  | nil => exact ⟨by rw [append_nil]; exact .refl, hacc⟩
  | cons n names ih =>
    by_cases hempty : n = ""
    · subst hempty
      exact ⟨.head (.empty acc names) (ih hacc).shortens, (ih hacc).steps⟩
    by_cases hhere : n = "."
    · subst hhere
      exact ⟨.head (.here acc names) (ih hacc).shortens, (ih hacc).steps⟩
    rw [filter_cons_of_pos (by simp [keeps, hempty, hhere]), foldl_cons]
    by_cases hup : n = ".."
    · subst hup
      obtain rfl | ⟨before, m, rfl⟩ := eq_nil_or_concat acc
      · exact ⟨.head (.top names) (ih hacc).shortens, (ih hacc).steps⟩
      · obtain ⟨hbefore, hm⟩ := forall_mem_append.mp (concat_eq_append ▸ hacc)
        rw [concat_eq_append, show step (before ++ [m]) ".." = before by simp [step], append_assoc]
        exact ⟨.head (.back before names (hm m mem_cons_self)) (ih hbefore).shortens,
          (ih hbefore).steps⟩
    · have hn : IsStep n := ⟨hempty, hhere, hup⟩
      have happend := ih (forall_mem_append.mpr ⟨hacc, forall_mem_singleton.mpr hn⟩)
      rw [append_assoc, singleton_append] at happend
      rwa [step_of_isStep hn]

/-- There is one path without detours, and it is reached by going through the names. -/
theorem normal_iff : Normal names short ↔ short = (names.filter keeps).foldl step [] := by
  constructor
  · rintro ⟨hshortens, hsteps⟩
    have heq : (names.filter keeps).foldl step [] = (short.filter keeps).foldl step [] := by
      clear hsteps
      induction hshortens with
      | refl => rfl
      | tail _ hlast ih => exact ih.trans hlast.foldl_eq
    rw [heq, filter_keeps hsteps, foldl_step hsteps, nil_append]
  · rintro rfl
    exact shortens_foldl (forall_mem_nil _) names

theorem mem_of_foldl (names : List String) (h : n ∈ names.foldl step acc) : n ∈ acc ∨ n ∈ names := by
  induction names generalizing acc with
  | nil => exact .inl h
  | cons m names ih =>
    obtain hstep | hnames := ih h
    · rw [step] at hstep
      split at hstep
      · exact .inl (dropLast_subset acc hstep)
      · grind
    · exact .inr (mem_cons_of_mem m hnames)

/-! ## Texts of paths -/

theorem parts_intercalate (hne : names ≠ []) (h : ∀ n ∈ names, '/' ∉ n.toList) :
    Text.parts '/' ("/".intercalate names) = names := by
  have hsplit : (['/'].intercalate (names.map String.toList)).splitOn '/' = names.map String.toList :=
    splitOn_intercalate '/' (by simpa using h) (by simpa using hne)
  rw [Text.parts, String.toList_intercalate, show "/".toList = ['/'] from rfl, hsplit, map_map]
  exact (map_congr_left fun n _ => String.ofList_toList).trans (map_id names)

theorem parts_slash (s : String) : Text.parts '/' ("/" ++ s) = "" :: Text.parts '/' s := by
  rw [← String.empty_append (s := "/"), show "/" = String.singleton '/' from rfl, Text.parts_append]
  rfl

theorem mem_text {p : Path} {c} (hroot : p.root = "/") (h : c ∈ p.text.toList) :
    c = '/' ∨ ∃ n ∈ p.names, c ∈ n.toList := by
  have htext : p.text = "/" ++ "/".intercalate p.names := by simp [text, hroot]
  rw [htext, String.toList_append, mem_append] at h
  obtain hslash | h := h
  · exact .inl (mem_singleton.mp hslash)
  generalize p.names = names at h
  induction names with
  | nil => cases h
  | cons n names ih =>
    cases names with
    | nil => exact .inr ⟨n, mem_cons_self, by simpa using h⟩
    | cons m names =>
      rw [String.intercalate_cons_cons, String.toList_append, String.toList_append] at h
      grind

/-- The names of a path without detours are the names of its text. -/
theorem ofText_text {p} (hroot : p.root = "/") (hsteps : ∀ n ∈ p.names, IsStep n)
    (hnames : ∀ n ∈ p.names, '/' ∉ n.toList) : ofText p.text = p := by
  obtain ⟨root, names⟩ := p
  subst hroot
  obtain rfl | hne := Decidable.em (names = [])
  · rfl
  have htext : text ⟨"/", names⟩ = "/" ++ "/".intercalate names := by simp [text]
  have hparts := parts_intercalate hne hnames
  have hhead : ("/".intercalate names).toList.takeWhile (· == '/') = [] := by
    generalize hs : "/".intercalate names = s at hparts
    match hcs : s.toList with
    | [] => rfl
    | c :: cs =>
      refine takeWhile_cons_of_neg fun hc => ?_
      obtain rfl := beq_iff_eq.mp hc
      have hs : s = "/" ++ String.ofList cs := String.toList_inj.mp (by simp [hcs])
      rw [hs, parts_slash] at hparts
      exact (hsteps "" (hparts ▸ mem_cons_self)).1 rfl
  have hcount : (("/" ++ "/".intercalate names).toList.takeWhile (· == '/')).length = 1 := by
    rw [String.toList_append, show "/".toList = ['/'] from rfl, singleton_append,
      takeWhile_cons_of_pos rfl, hhead, length_singleton]
  rw [htext, mk.injEq]
  constructor
  · rw [ofText, hcount]
    rfl
  · rw [names_ofText, parts_slash, filter_cons_of_neg (by decide), hparts, filter_keeps hsteps]

end Path

/-! ## Addresses -/

namespace Uri

/-- A character that stands in the address of a path. -/
def isWritten (c : Char) : Bool := Path.isUnreserved c || c == '%'

theorem lt_of_isWritten {c} (h : isWritten c = true) : c.toNat < 128 := by
  rw [isWritten, Path.isUnreserved, Bool.or_eq_true, Bool.and_eq_true, decide_eq_true_iff] at h
  obtain ⟨hlt, -⟩ | hpercent := h
  · exact hlt
  · simp_all

theorem isWritten_hexDigits {n} (h : n < 256) :
    ((Text.hexDigits 2 n).map Char.toUpper).all isWritten = true ∧
      Number.natural? 16 ((Text.hexDigits 2 n).map Char.toUpper) = some n := by
  revert n
  decide +kernel

variable {halves : Text.Halves}

theorem isWritten_percent {c d} (h : d ∈ Path.percent halves c) : isWritten d = true := by
  rw [Path.percent] at h
  split at h
  · obtain rfl := mem_singleton.mp h
    simp [isWritten, *]
  · obtain ⟨b, -, hb⟩ := mem_flatMap.mp h
    obtain rfl | hdigit := mem_cons.mp hb
    · rfl
    · exact all_eq_true.mp (isWritten_hexDigits b.toNat_lt).1 d hdigit

theorem unescape_byte (b : UInt8) (rest : List Char) :
    unescape ('%' :: (Text.hexDigits 2 b.toNat).map Char.toUpper ++ rest) = b :: unescape rest := by
  have hread := (isWritten_hexDigits b.toNat_lt).2
  simp only [Text.hexDigits, nil_append, cons_append, map_cons, map_nil] at hread ⊢
  rw [unescape, hread]
  simp

/-- A character stands in an address for itself and not for half of a pair. -/
def Whole (halves : Text.Halves) (c : Char) : Prop := Path.isUnreserved c = true ∨ halves c = none

theorem unescape_percent {c} (h : Whole halves c) (rest : List Char) :
    unescape (Path.percent halves c ++ rest) = Text.charBytes c ++ unescape rest := by
  rw [Path.percent]
  split
  · have hc : c ≠ '%' := by rintro rfl; contradiction
    have hlt : c.toNat < 128 := by simp_all [Path.isUnreserved]
    rw [singleton_append, Text.charBytes_of_lt hlt, singleton_append]
    exact unescape.eq_3 _ _ (by simp [hc])
  · rename_i hother
    have hbytes : Text.fileBytes halves c.toString = Text.charBytes c := by
      simp [Text.fileBytes, h.resolve_left hother, Char.toString]
    rw [hbytes]
    induction Text.charBytes c with
    | nil => rfl
    | cons b bs ih => rw [flatMap_cons, append_assoc, unescape_byte, ih, cons_append]

theorem unescape_flatMap {cs : List Char} (h : ∀ c ∈ cs, Whole halves c) :
    unescape (cs.flatMap (Path.percent halves)) = cs.flatMap Text.charBytes := by
  induction cs with
  | nil => rfl
  | cons c cs ih =>
    obtain ⟨hc, hcs⟩ := forall_mem_cons.mp h
    rw [flatMap_cons, unescape_percent hc, ih hcs, flatMap_cons]

theorem decodeRuns_of_ascii {cs} (h : Text.IsAscii cs) (run : List Char) :
    decodeRuns run cs = (Text.ofBytes (unescape (run.reverse ++ cs))).toList := by
  induction cs generalizing run with
  | nil => rw [decodeRuns, append_nil]
  | cons c cs ih =>
    obtain ⟨hc, hcs⟩ := Text.isAscii_cons.mp h
    rw [decodeRuns, if_pos hc, ih hcs, reverse_cons, append_assoc, singleton_append]

theorem decode_percent {s : String} (h : ∀ c ∈ s.toList, Whole halves c) :
    decode (String.ofList (s.toList.flatMap (Path.percent halves))) = s := by
  have hascii : Text.IsAscii (s.toList.flatMap (Path.percent halves)) := by
    intro d hd
    obtain ⟨c, -, hc⟩ := mem_flatMap.mp hd
    exact lt_of_isWritten (isWritten_percent hc)
  rw [decode, String.toList_ofList, decodeRuns_of_ascii hascii, reverse_nil, nil_append,
    unescape_flatMap h, ← Text.bytes, Text.ofBytes_bytes, String.ofList_toList]

theorem split?_uri {p : Path} (hroot : p.root = "/") :
    split? (p.uri halves) = some ⟨"file", String.ofList (p.text.toList.flatMap (Path.percent halves))⟩ := by
  have hwritten : ∀ c ∈ p.text.toList.flatMap (Path.percent halves), isWritten c = true := by
    intro d hd
    obtain ⟨c, -, hc⟩ := mem_flatMap.mp hd
    exact isWritten_percent hc
  have hslash : ∃ rest, p.text.toList.flatMap (Path.percent halves) = '/' :: rest := by
    refine ⟨("/".intercalate p.names).toList.flatMap (Path.percent halves), ?_⟩
    simp [Path.text, hroot]
    rfl
  obtain ⟨rest, hrest⟩ := hslash
  have huri : (p.uri halves).toList = "file://".toList ++ p.text.toList.flatMap (Path.percent halves) := by
    simp [Path.uri]
  rw [hrest] at hwritten huri ⊢
  have hother {d : Char} (hd : isWritten d = false) : ∀ c ∈ '/' :: rest, c ≠ d := by
    rintro c hc rfl
    exact Bool.false_ne_true (hd.symm.trans (hwritten c hc))
  have hclean : clean (p.uri halves).toList = (p.uri halves).toList := by
    have hdrop : (p.uri halves).toList.dropWhile (fun c => c.toNat ≤ 32) = (p.uri halves).toList := by
      rw [huri]
      rfl
    rw [clean, hdrop, filter_eq_self, huri]
    refine forall_mem_append.mpr ⟨all_eq_true.mp rfl, fun c hc => ?_⟩
    simp [hother (d := '\t') rfl c hc, hother (d := '\r') rfl c hc, hother (d := '\n') rfl c hc]
  have hscheme : splitScheme (clean (p.uri halves).toList) = ("file".toList, '/' :: '/' :: '/' :: rest) := by
    rw [hclean, huri]
    rfl
  have hhost : splitHost ('/' :: '/' :: '/' :: rest) = ([], '/' :: rest) := rfl
  have hpath : (('/' :: rest).takeWhile (· != '#')).takeWhile (· != '?') = '/' :: rest := by
    rw [takeWhile_eq_self_iff.mpr fun c hc => bne_iff_ne.mpr (hother rfl c hc),
      takeWhile_eq_self_iff.mpr fun c hc => bne_iff_ne.mpr (hother rfl c hc)]
  have hvalid : Host.isValid [] = true := by decide
  have hplain : parametric.contains "file" = false := by decide
  simp only [split?, hscheme, hhost, hpath, hvalid, String.ofList_toList, hplain]
  rfl

end Uri

/-! ## Links -/

/-- A text whose characters can all stand in the path of a file. -/
def Path.Nameable (halves : Text.Halves) (s : String) : Prop := ∀ c ∈ s.toList, c ≠ '\x00' ∧ halves c = none

instance (halves : Text.Halves) (s : String) : Decidable (Path.Nameable halves s) := List.decidableBAll _ _

/-- A text that can be the name of a file. -/
structure Path.IsName (halves : Text.Halves) (n : String) : Prop where
  nameable : Nameable halves n
  slash : '/' ∉ n.toList

variable {d p : Path} {t : String} {halves : Text.Halves}

theorem Path.isName_of_mem (h : Nameable halves t) {n} (hn : n ∈ (ofText t).names) : IsName halves n :=
  have hparts := Text.mem_parts (mem_filter.mp hn).1
  ⟨fun c hc => h c (hparts c hc).1, fun hc => (hparts _ hc).2 rfl⟩

theorem Path.isAbsolute_ofText (t) : (ofText t).isAbsolute = decide (t.toList.head? = some '/') := by
  rw [isAbsolute, ofText]
  cases t.toList with
  | nil => rfl
  | cons c cs =>
    by_cases hc : c = '/'
    · subst hc
      rw [takeWhile_cons_of_pos rfl, length_cons, if_neg (Nat.succ_ne_zero _)]
      split <;> rfl
    · rw [takeWhile_cons_of_neg (by simpa using hc)]
      simp [hc]

theorem Uri.path?_uri (hroot : p.root = "/") (hsteps : ∀ n ∈ p.names, Path.IsStep n)
    (hnames : ∀ n ∈ p.names, Path.IsName halves n) : path? (p.uri halves) = some p := by
  have htext : ∀ c ∈ p.text.toList, Whole halves c := by
    intro c hc
    obtain rfl | ⟨n, hn, hc⟩ := Path.mem_text hroot hc
    · exact .inl rfl
    · exact .inr ((hnames n hn).nameable c hc).2
  rw [path?, split?_uri hroot, Option.map_some, decode_percent htext,
    Path.ofText_text hroot hsteps fun n hn => (hnames n hn).slash]

namespace Workspace

theorem resolve_of_join (w : Workspace) {doc base root}
    (hbase : (if (Path.ofText t).isAbsolute then pure (Path.ofText ".")
      else (documentPath doc).map (·.parent)) = .ok base)
    (hjoin : base.join (Path.ofText t) = ⟨root, base.names ++ (Path.ofText t).names⟩)
    (hroot : root ≠ "") (hnames : ∀ n ∈ base.names ++ (Path.ofText t).names, Path.IsName w.halves n) :
    w.resolve doc t = .ok ⟨"/", (base.names ++ (Path.ofText t).names).foldl Path.step []⟩ := by
  have hcwd : w.cwd.join (base.join (Path.ofText t)) = base.join (Path.ofText t) :=
    if_pos (by simpa [hjoin, Path.isAbsolute] using hroot)
  have hfind : ((base.names ++ (Path.ofText t).names).find? fun n =>
      n.toList.any fun c => c == '\x00' || w.isUnencodable c) = none := by
    rw [List.find?_eq_none]
    intro n hn hany
    obtain ⟨c, hc, hbad⟩ := any_eq_true.mp hany
    obtain ⟨hnul, hhalf⟩ := (hnames n hn).nameable c hc
    simp [isUnencodable, hnul, hhalf] at hbad
  rw [hjoin] at hcwd
  rw [resolve]
  by_cases habs : (Path.ofText t).isAbsolute = true
  · rw [if_pos habs] at hbase ⊢
    cases hbase
    simp only [pure_bind, hjoin, hcwd, hfind, Path.resolve]
    rfl
  · rw [if_neg habs] at hbase ⊢
    simp only [hbase, bind, Except.bind, hjoin, hcwd, hfind, Path.resolve]
    rfl

/-- A link is seen from the directory of the document, and leads to a path without detours. -/
theorem resolve_normal (w : Workspace) {u} (hu : Uri.path? u = some d)
    (habsolute : d.isAbsolute = true) (hd : ∀ n ∈ d.parent.names, Path.Nameable w.halves n)
    (ht : Path.Nameable w.halves t) :
    ∃ p : Path, w.resolve (.str u) t = .ok p ∧ p.root = "/" ∧ (∀ n ∈ p.names, Path.IsName w.halves n) ∧
      ∀ names, Path.Normal ((if t.toList.head? = some '/' then [] else d.parent.names) ++
        Text.parts '/' t) names ↔ names = p.names := by
  have hlink : ∀ n ∈ (Path.ofText t).names, Path.IsName w.halves n := fun n hn => Path.isName_of_mem ht hn
  -- a link on its own is seen from the path `.`, which has no names
  obtain ⟨base, root, hbase, hjoin, hroot, hkeeps, hnames, hfrom⟩ : ∃ (base : Path) (root : String),
      (if (Path.ofText t).isAbsolute then pure (Path.ofText ".")
        else (documentPath (.str u)).map (·.parent)) = .ok base ∧
      base.join (Path.ofText t) = ⟨root, base.names ++ (Path.ofText t).names⟩ ∧ root ≠ "" ∧
      (∀ n ∈ base.names, Path.keeps n = true) ∧ (∀ n ∈ base.names, Path.IsName w.halves n) ∧
      base.names = if t.toList.head? = some '/' then [] else d.parent.names := by
    by_cases hslash : t.toList.head? = some '/'
    · have habs : (Path.ofText t).isAbsolute = true := by simpa [Path.isAbsolute_ofText] using hslash
      rw [if_pos habs, if_pos hslash]
      exact ⟨Path.ofText ".", (Path.ofText t).root, rfl, if_pos habs, bne_iff_ne.mp habs,
        forall_mem_nil _, forall_mem_nil _, rfl⟩
    · have hrel : ¬(Path.ofText t).isAbsolute = true := by simpa [Path.isAbsolute_ofText] using hslash
      have hdoc : documentPath (.str u) = .ok d := by simp only [documentPath, hu]; rfl
      rw [if_neg hrel, if_neg hslash, hdoc]
      have hdir : ∀ n ∈ d.parent.names, Path.keeps n = true ∧ '/' ∉ n.toList := by
        obtain ⟨uri, -, rfl⟩ := Option.map_eq_some_iff.mp hu
        intro n hn
        obtain ⟨hpart, hkeeps⟩ := mem_filter.mp (dropLast_subset _ hn)
        exact ⟨hkeeps, fun hc => (Text.mem_parts hpart _ hc).2 rfl⟩
      exact ⟨d.parent, d.root, rfl, if_neg hrel, bne_iff_ne.mp habsolute, fun n hn => (hdir n hn).1,
        fun n hn => ⟨hd n hn, (hdir n hn).2⟩, rfl⟩
  have hall := forall_mem_append.mpr ⟨hnames, hlink⟩
  refine ⟨_, w.resolve_of_join hbase hjoin hroot hall, rfl, fun n hn => ?_, fun names => ?_⟩
  · exact hall n ((Path.mem_of_foldl _ hn).resolve_left not_mem_nil)
  · rw [← hfrom, Path.normal_iff, filter_append, filter_eq_self.mpr hkeeps, Path.names_ofText]

/-- A link leads to the only path without detours that it comes to, an absolute one from its own
names and any other from the directory of the document. The address of that path names it again, and
a link in the document there leads on from its directory. The texts have no halves of surrogate
pairs; if no character stands for one, they may have any characters. -/
theorem resolve_readdressed (w : Workspace) {u t₁ t₂ : String} (hu : Uri.path? u = some d)
    (habsolute : d.isAbsolute = true) (hd : ∀ n ∈ d.parent.names, Path.Nameable w.halves n)
    (h₁ : Path.Nameable w.halves t₁) (h₂ : Path.Nameable w.halves t₂) :
    ∃ p, w.resolve (.str u) t₁ = .ok p ∧ p.isAbsolute = true ∧
      (∀ names, Path.Normal ((if t₁.toList.head? = some '/' then [] else d.parent.names) ++
        Text.parts '/' t₁) names ↔ names = p.names) ∧
      Uri.path? (p.uri w.halves) = some p ∧
      (t₂.toList.head? ≠ some '/' → ∃ q, w.resolve (.str (p.uri w.halves)) t₂ = .ok q ∧ q.isAbsolute = true ∧
        ∀ names, Path.Normal (p.parent.names ++ Text.parts '/' t₂) names ↔ names = q.names) := by
  obtain ⟨p, hp, hroot, hnames, hnormal⟩ := w.resolve_normal hu habsolute hd h₁
  have hsteps := ((hnormal p.names).mpr rfl).steps
  have haddress := Uri.path?_uri hroot hsteps hnames
  have hslash : p.isAbsolute = true := by rw [Path.isAbsolute, hroot]; rfl
  refine ⟨p, hp, hslash, hnormal, haddress, fun hrelative => ?_⟩
  obtain ⟨q, hq, hqroot, -, hqnormal⟩ := w.resolve_normal haddress hslash
    (fun n hn => (hnames n (dropLast_subset _ hn)).nameable) h₂
  rw [if_neg hrelative] at hqnormal
  exact ⟨q, hq, by rw [Path.isAbsolute, hqroot]; rfl, hqnormal⟩

/-- A workspace without files, for texts without halves of pairs. -/
def bare : Workspace := { files := [], replies := [], halves := fun _ => none }

theorem resolve_readdressed_sample :
    ∃ p, bare.resolve (.str "file:///ws/a%20b/doc.cwl") "../c;d ?#%é/./x" = .ok p ∧
      p.names = ["ws", "c;d ?#%é", "x"] ∧ Uri.path? (p.uri bare.halves) = some p ∧
      ∃ q, bare.resolve (.str (p.uri bare.halves)) "../../../../t" = .ok q ∧ q.names = ["t"] := by
  obtain ⟨p, hp, -, hnormal, haddress, hnext⟩ := bare.resolve_readdressed
    (show Uri.path? "file:///ws/a%20b/doc.cwl" = some ⟨"/", ["ws", "a b", "doc.cwl"]⟩ by decide +kernel)
    (by decide) (by decide) (show Path.Nameable bare.halves "../c;d ?#%é/./x" by decide)
    (show Path.Nameable bare.halves "../../../../t" by decide)
  have hnames : p.names = ["ws", "c;d ?#%é", "x"] := ((hnormal _).mp (Path.normal_iff.mpr (by decide))).symm
  obtain ⟨q, hq, -, hqnormal⟩ := hnext (by decide)
  refine ⟨p, hp, hnames, haddress, q, hq, ((hqnormal _).mp (Path.normal_iff.mpr ?_)).symm⟩
  show ["t"] = ((p.names.dropLast ++ _).filter _).foldl _ _
  rw [hnames]
  decide

/-- Half of a surrogate pair has no path, or it stands for a byte that no address keeps. -/
theorem resolve_of_half : let w : Workspace := { files := [], replies := [] }
    w.resolve (.str "file:///ws/doc.cwl") (String.ofList ['a', Text.ofHalf 0xD800]) = .error .unencodable ∧
    ∃ p, w.resolve (.str "file:///ws/doc.cwl") (String.ofList ['a', Text.ofHalf 0xDC80]) = .ok p ∧
      Uri.path? (p.uri w.halves) ≠ some p := by
  refine ⟨rfl, ⟨"/", ["ws", String.ofList ['a', Text.ofHalf 0xDC80]]⟩, rfl, by decide +kernel⟩

end Workspace
end CwlService
