import OpenWatcom.Clib.SplitPath

/-!
# The parts of a path and the path again

* `parts_append`, `parts_shape`     what the parts are
* `scan_eq`, `splitpath_parts`     `_splitpath` finds them, in front of the limits
* `copyPicked_spec`, `makepath_parts`     `_makepath` puts them together
* `parts_cons_colon`     the parts of a path whose drive was not taken off
* `splitpath_makepath_iff`     where both halves hold
-/

namespace DosPath

/-! ## the parts -/

theorem parts_append (xs : List Char) : (parts xs).1 ++ ((parts xs).2.1 ++ (parts xs).2.2) = xs := by
  induction xs with
  | nil => rfl
  | cons c xs ih =>
    rw [parts]
    dsimp only
    by_cases hd : (parts xs).1 = []
    · rw [hd, List.nil_append] at ih
      rw [if_neg (not_not.mpr hd)]
      split_ifs with hs he
      · exact congrArg (c :: ·) ih
      · rw [he.2, List.append_nil] at ih
        exact congrArg (c :: ·) ih
      · exact congrArg (c :: ·) ih
    · rw [if_pos hd]
      exact congrArg (c :: ·) ih

/-- a directory ends in a separator, and none is behind it; an extension starts with the last dot -/
structure Shape (p : List Char × List Char × List Char) : Prop where
  dir : p.1 = [] ∨ ∃ d s, p.1 = d ++ [s] ∧ isDirSep s = true
  fname : ∀ c ∈ p.2.1, isDirSep c = false
  ext : ∀ c ∈ p.2.2, isDirSep c = false
  dot : p.2.2 = [] ∨ ∃ e, p.2.2 = EXT_SEP :: e

theorem parts_shape (xs : List Char) : Shape (parts xs) := by
  induction xs with
  | nil => exact ⟨.inl rfl, by simp [parts], by simp [parts], .inl rfl⟩
  | cons c xs ih =>
    rw [parts]
    dsimp only
    by_cases hd : (parts xs).1 = []
    · rw [if_neg (not_not.mpr hd)]
      by_cases hs : isDirSep c = true
      · rw [if_pos hs]
        exact ⟨.inr ⟨[], c, rfl, hs⟩, ih.fname, ih.ext, ih.dot⟩
      · rw [if_neg hs]
        have hc : ∀ x ∈ c :: (parts xs).2.1, isDirSep x = false := by
          intro x hx
          rcases List.mem_cons.mp hx with rfl | hx
          · exact Bool.eq_false_iff.mpr hs
          · exact ih.fname x hx
        by_cases he : c = EXT_SEP ∧ (parts xs).2.2 = []
        · rw [if_pos he]
          exact ⟨.inl rfl, by simp, hc, .inr ⟨_, congrArg (· :: _) he.1⟩⟩
        · rw [if_neg he]
          exact ⟨.inl rfl, hc, ih.ext, ih.dot⟩
    · rw [if_pos hd]
      obtain h | ⟨d, s, h, hs⟩ := ih.dir
      · exact absurd h hd
      · exact ⟨.inr ⟨c :: d, s, by dsimp only; rw [h]; rfl, hs⟩, ih.fname, ih.ext, ih.dot⟩

/-! ## taking apart -/

/-- the marks behind a text of the given parts, from those in front of it -/
def marksBehind (p : List Char × List Char × List Char) (i : ℕ) (m : Marks) : Marks :=
  ⟨if p.1 = [] then m.fnamep else i + p.1.length,
    if p.2.2 ≠ [] then some (i + p.1.length + p.2.1.length) else if p.1 = [] then m.dotp else none⟩

theorem scan_eq (xs : List Char) (i : ℕ) (m : Marks) : scan xs i m = marksBehind (parts xs) i m := by
  induction xs generalizing i m with
  | nil => rfl
  | cons c xs ih =>
    rw [scan, ih, ih, parts]
    generalize parts xs = p
    obtain ⟨dir, fname, ext⟩ := p
    dsimp only
    have hsep : isDirSep EXT_SEP = false := by decide
    by_cases hd : dir = []
    · subst hd
      rw [if_neg (not_not.mpr rfl)]
      by_cases hdot : c = EXT_SEP
      · subst hdot
        rw [if_pos rfl, hsep, if_neg Bool.false_ne_true]
        by_cases he : ext = []
        · subst he
          rw [if_pos ⟨rfl, rfl⟩]
          rfl
        · rw [if_neg fun h => he h.2]
          simp only [marksBehind, if_true, if_pos he, List.length_nil, List.length_cons]
          exact congrArg (Marks.mk _) (congrArg some (by omega))
      · rw [if_neg hdot]
        by_cases hs : isDirSep c = true
        · rw [if_pos hs, if_pos hs]
          simp only [marksBehind, if_true, if_neg (List.cons_ne_nil c []), List.length_nil,
            List.length_cons, add_zero]
        · rw [if_neg hs, if_neg hs, if_neg fun h => hdot h.1]
          simp only [marksBehind, if_true, List.length_nil, List.length_cons, add_zero]
          rw [add_right_comm i 1, add_assoc i fname.length]
    · rw [if_pos hd]
      simp only [marksBehind, if_neg hd, if_neg (List.cons_ne_nil c dir), List.length_cons]
      rw [add_right_comm i 1, add_assoc i dir.length]
      split <;> rfl

theorem copypart_eq (buf : Bool) {p x : List Char} {len : ℕ} (maxlen : ℕ) (h : p.take len = x) :
    copypart buf p len maxlen = if buf then some (x.take maxlen) else none := by
  rw [copypart, ← h, List.take_take]
  split_ifs with hb hm
  · rw [min_eq_left (le_of_lt hm)]
  · rw [min_eq_right (not_lt.mp hm)]
  · rfl

/-- the text whose parts are stored -/
def startp (want : Want) (path : List Char) : List Char :=
  if testDrive path ∧ want.drive then path.drop 2 else path

/-- each part is stored up to its limit -/
theorem splitpath_parts (L : Limits) (want : Want) (path : List Char) : splitpath L want path =
    ⟨if want.drive then some (if testDrive path then path.take 2 else []) else none,
      if want.dir then some ((parts (startp want path)).1.take (L.dir - 1)) else none,
      if want.fname then some ((parts (startp want path)).2.1.take (L.fname - 1)) else none,
      if want.ext then some ((parts (startp want path)).2.2.take (L.ext - 1)) else none⟩ := by
  have happ := parts_append (startp want path)
  have hmarks := scan_eq (startp want path) 0 ⟨0, none⟩
  unfold splitpath
  dsimp only
  rw [← startp]
  generalize startp want path = xs at happ hmarks ⊢
  generalize parts xs = p at happ hmarks ⊢
  obtain ⟨dir, fname, ext⟩ := p
  dsimp only at happ ⊢
  subst happ
  have hf : (scan (dir ++ (fname ++ ext)) 0 ⟨0, none⟩).fnamep = dir.length := by
    rw [hmarks, marksBehind]
    dsimp only
    split_ifs with hd
    · rw [hd, List.length_nil]
    · rw [zero_add]
  have hd : (scan (dir ++ (fname ++ ext)) 0 ⟨0, none⟩).dotp.getD (dir ++ (fname ++ ext)).length
      = dir.length + fname.length := by
    rw [hmarks, marksBehind]
    dsimp only
    by_cases he : ext = []
    · rw [if_neg (not_not.mpr he), ite_self, he, List.append_nil, List.length_append]
      rfl
    · rw [if_pos he, zero_add]
      rfl
  rw [hf, hd, copypart_eq want.dir _ List.take_left]
  rw [copypart_eq (x := fname), copypart_eq (x := ext)]
  · rw [← List.drop_drop, List.drop_left, List.drop_left, List.length_append, List.length_append]
    exact List.take_of_length_le (by omega)
  · rw [List.drop_left, Nat.add_sub_cancel_left, List.take_left]

/-! ## joining -/

/-- what stands in front of the cursor -/
def Buf.front (b : Buf) : List Char := (List.range b.path).map b.mem

theorem Buf.front_set (b : Buf) (c : Char) : (b.set c).front = b.front := by
  refine List.map_congr_left fun i hi => ?_
  have hlt : i < b.path := List.mem_range.mp hi
  exact Function.update_of_ne (ne_of_lt hlt) _ _

theorem Buf.front_next (b : Buf) : b.next.front = b.front ++ [b.cur] := by
  rw [Buf.front, Buf.next, List.range_succ, List.map_append]
  rfl

theorem Buf.cur_set (b : Buf) (c : Char) : (b.set c).cur = c := Function.update_self _ _ _

theorem Buf.front_put (b : Buf) (c : Char) : (b.put c).front = b.front ++ [c] := by
  rw [Buf.put, Buf.front_next, Buf.front_set, Buf.cur_set]

theorem Buf.front_putTerminated (b : Buf) (c : Char) : (b.putTerminated c).front = b.front ++ [c] := by
  rw [Buf.putTerminated, Buf.front_set, Buf.front_put]

theorem Buf.front_puts (b : Buf) (s : List Char) : (b.puts s).front = b.front ++ s := by
  induction s generalizing b with
  | nil => exact (List.append_nil _).symm
  | cons c s ih =>
    show ((b.put c).puts s).front = _
    rw [ih, Buf.front_put, List.append_assoc]
    rfl

theorem Buf.length_front (b : Buf) : b.front.length = b.path := by
  rw [Buf.front, List.length_map, List.length_range]

/-- one step back -/
theorem Buf.front_back (b : Buf) {d : List Char} {c : Char} (h : b.front = d ++ [c]) :
    b.mem (b.path - 1) = c ∧ Buf.front { b with path := b.path - 1 } = d := by
  have hl := b.length_front
  rw [h, List.length_append, List.length_singleton] at hl
  have hn : (Buf.mk b.mem (b.path - 1)).next = b := by
    rw [Buf.next]
    dsimp only
    rw [show b.path - 1 + 1 = b.path by omega]
  have h' := (Buf.mk b.mem (b.path - 1)).front_next
  rw [hn, h] at h'
  obtain ⟨h1, h2⟩ := List.append_inj' h' rfl
  exact ⟨(List.cons.inj h2).1.symm, h1.symm⟩

/-- the string at the end -/
theorem Buf.isString (b : Buf) {s : List Char} (h : b.front = s) : IsString (b.set nul).mem s := by
  subst h
  refine ⟨fun i hi => ?_, ?_⟩
  · have hlt : i < b.path := b.length_front ▸ hi
    have hi' : b.front[i] = b.mem i := by simp only [Buf.front, List.getElem_map, List.getElem_range]
    rw [hi']
    exact Function.update_of_ne (ne_of_lt hlt) _ _
  · rw [b.length_front]
    exact Function.update_self _ _ _

/-- separators become the given one -/
def withSep (s : Char) (xs : List Char) : List Char := xs.map fun c => if isDirSep c then s else c

theorem withSep_of_none (s : Char) {xs : List Char} (h : ∀ c ∈ xs, isDirSep c = false) :
    withSep s xs = xs := by
  rw [withSep, ← List.map_id xs, List.map_map]
  refine List.map_congr_left fun c hc => ?_
  show (if isDirSep c = true then s else c) = c
  rw [h c hc, if_neg Bool.false_ne_true]

/-- the character of choice behind a text, from the one in front of it -/
def choice (s : List Char) (firstPc : Char) : Char :=
  if firstPc = nul then (s.find? isDirSep).getD nul else firstPc

theorem copyPicked_spec (s : List Char) (b : Buf) (firstPc : Char) :
    (copyPicked s b firstPc).2 = choice s firstPc ∧
      (copyPicked s b firstPc).1.front = b.front ++ withSep (choice s firstPc) s := by
  induction s generalizing b firstPc with
  | nil =>
    refine ⟨?_, (List.append_nil _).symm⟩
    show firstPc = if firstPc = nul then nul else firstPc
    split_ifs with h
    · exact h
    · rfl
  | cons c s ih =>
    rw [copyPicked]
    obtain ⟨h1, h2⟩ := ih (b.putTerminated (pickup c firstPc).1) (pickup c firstPc).2
    dsimp only
    rw [h1, h2, Buf.front_putTerminated, List.append_assoc]
    have hnul : isDirSep nul = false := by decide
    by_cases hs : isDirSep c = true
    · have hc : c ≠ nul := by
        rintro rfl
        rw [hnul] at hs
        exact Bool.false_ne_true hs
      have hch : choice s (pickup c firstPc).2 = choice (c :: s) firstPc ∧
          (pickup c firstPc).1 = choice (c :: s) firstPc := by
        rw [pickup, if_pos hs]
        by_cases hf : firstPc = nul
        · rw [if_pos hf, choice, choice, if_neg hc, if_pos hf, List.find?_cons_of_pos hs]
          exact ⟨rfl, rfl⟩
        · rw [if_neg hf, choice, choice, if_neg hf, if_neg hf]
          exact ⟨rfl, rfl⟩
      rw [hch.1, hch.2]
      refine ⟨rfl, congrArg (b.front ++ ·) ?_⟩
      rw [withSep, withSep, List.map_cons, if_pos hs]
      rfl
    · rw [pickup, if_neg hs]
      have hch : choice s firstPc = choice (c :: s) firstPc := by
        rw [choice, choice, List.find?_cons_of_neg hs]
      dsimp only
      rw [hch]
      refine ⟨rfl, congrArg (b.front ++ ·) ?_⟩
      rw [withSep, withSep, List.map_cons, if_neg hs]
      rfl

theorem isDirSep_ne_nul {c : Char} (h : isDirSep c = true) : c ≠ nul := by
  rintro rfl
  exact absurd h (by decide)

theorem front_putDrive {b : Buf} {drive : List Char} (hb : b.front = [])
    (h : drive = [] ∨ ∃ c, drive = [c, DRV_SEP]) : (putDrive b drive).front = drive := by
  obtain rfl | ⟨c, rfl⟩ := h
  · rw [putDrive, if_pos rfl, hb]
  · have hne : DRV_SEP ≠ DIR_SEP := by decide
    rw [putDrive, if_neg (List.cons_ne_nil _ _), if_neg fun h => hne h.2, Buf.front_put,
      Buf.front_put, hb]
    rfl

/-- the separator that the cursor stays on, and what is in front of it -/
theorem putDir_spec (b : Buf) {d : List Char} {s : Char} (hs : isDirSep s = true) :
    (putDir b (d ++ [s])).2 = choice (d ++ [s]) nul ∧
      isDirSep (choice (d ++ [s]) nul) = true ∧
      (putDir b (d ++ [s])).1.cur = choice (d ++ [s]) nul ∧
      (putDir b (d ++ [s])).1.front ++ [choice (d ++ [s]) nul]
        = b.front ++ withSep (choice (d ++ [s]) nul) (d ++ [s]) := by
  have hsep : isDirSep (choice (d ++ [s]) nul) = true := by
    rw [choice, if_pos rfl]
    cases hf : (d ++ [s]).find? isDirSep with
    | none => exact absurd hs (List.find?_eq_none.mp hf s (List.mem_append_right _ (List.mem_singleton_self s)))
    | some c => exact List.find?_some hf
  obtain ⟨h1, h2⟩ := copyPicked_spec (d ++ [s]) b nul
  rw [putDir, if_neg (List.append_ne_nil_of_right_ne_nil _ (List.cons_ne_nil _ _))]
  dsimp only
  rw [h1]
  generalize choice (d ++ [s]) nul = f at hsep h2 ⊢
  generalize (copyPicked (d ++ [s]) b nul).1 = b' at h2 ⊢
  have hlast : withSep f (d ++ [s]) = withSep f d ++ [f] := by
    rw [withSep, List.map_append, List.map_singleton, if_pos hs]
    rfl
  rw [hlast, ← List.append_assoc] at h2
  obtain ⟨h3, h4⟩ := b'.front_back h2
  rw [if_neg (isDirSep_ne_nul hsep), if_pos h3]
  refine ⟨rfl, hsep, h3, ?_⟩
  rw [h4, hlast, List.append_assoc]

/-- a name without separators goes behind the separator that the cursor is on -/
theorem front_putFname (b : Buf) {firstPc : Char} {fname : List Char} (hsep : isDirSep firstPc = true)
    (h : ∀ c ∈ fname, isDirSep c = false) : (putFname b firstPc fname).front =
      b.front ++ ((if b.cur = firstPc then [firstPc] else []) ++ fname) := by
  rw [putFname]
  have hcur : (if b.cur = firstPc then b.next else b).front
      = b.front ++ if b.cur = firstPc then [firstPc] else [] := by
    by_cases hc : b.cur = firstPc
    · rw [if_pos hc, if_pos hc, Buf.front_next, hc]
    · rw [if_neg hc, if_neg hc, List.append_nil]
  cases fname with
  | nil => rw [if_pos rfl, hcur, List.append_nil]
  | cons c s =>
    have hne : (pickup ((c :: s).getD 0 nul) firstPc).1 ≠ firstPc := by
      have hc : isDirSep c = false := h c List.mem_cons_self
      show (pickup c firstPc).1 ≠ firstPc
      rw [pickup, hc, if_neg Bool.false_ne_true]
      intro heq
      rw [← show c = firstPc from heq, hc] at hsep
      exact Bool.false_ne_true hsep
    rw [if_neg (List.cons_ne_nil _ _)]
    dsimp only
    rw [(copyPicked_spec _ _ _).2, withSep_of_none _ h, ← List.append_assoc]
    simp only [hne, ne_eq, not_false_eq_true, true_and]
    rw [hcur]

theorem front_putExt (b : Buf) {ext : List Char} (h : ext = [] ∨ ∃ e, ext = EXT_SEP :: e) :
    (putExt b ext).front = b.front ++ ext := by
  obtain rfl | ⟨e, rfl⟩ := h
  · rw [putExt, if_pos rfl, List.append_nil]
  · have hdot : (EXT_SEP :: e).getD 0 nul = EXT_SEP := rfl
    rw [putExt, if_neg (List.cons_ne_nil _ _), if_neg (not_not.mpr hdot), Buf.front_puts]

/-- the string that is made of parts of the right shape, whose drive is a letter -/
theorem makepath_parts (mem : ℕ → Char) {drive : List Char} {p : List Char × List Char × List Char}
    (hdrive : drive = [] ∨ ∃ c, drive = [c, DRV_SEP]) (hp : Shape p) :
    IsString (makepath mem ⟨some drive, some p.1, some p.2.1, some p.2.2⟩).mem
      (drive ++ (withSep (choice p.1 nul) p.1 ++ (p.2.1 ++ p.2.2))) := by
  obtain ⟨dir, fname, ext⟩ := p
  have h0 : ((putDrive ⟨mem, 0⟩ drive).set nul).front = drive := by
    rw [Buf.front_set, front_putDrive rfl hdrive]
  have h0' : ((putDrive ⟨mem, 0⟩ drive).set nul).cur = nul := Buf.cur_set _ _
  rw [makepath]
  dsimp only [Option.getD_some]
  generalize (putDrive ⟨mem, 0⟩ drive).set nul = b at h0 h0' ⊢
  refine Buf.isString _ ?_
  rw [front_putExt _ hp.dot]
  obtain hd | ⟨d, s, hd, hs⟩ := hp.dir
  · dsimp only at hd
    subst hd
    have hdir : putDir b [] = (b, nul) := if_pos rfl
    have hne : nul ≠ DIR_SEP := by decide
    rw [hdir]
    dsimp only
    rw [if_pos rfl, front_putFname b (by decide) hp.fname, h0, h0', if_neg hne, List.append_assoc]
    rfl
  · dsimp only at hd
    subst hd
    obtain ⟨h1, h2, h3, h4⟩ := putDir_spec b hs
    rw [h1, if_neg (isDirSep_ne_nul h2), front_putFname _ h2 hp.fname, h3, if_pos rfl,
      ← List.append_assoc, h4, h0, List.append_assoc, List.append_assoc]

/-! ## the path again -/

/-- the four buffers -/
def Want.all : Want := ⟨true, true, true, true⟩

theorem isString_inj {mem : ℕ → Char} {s t : List Char} (hs : IsString mem s) (ht : IsString mem t)
    (hns : nul ∉ s) (hnt : nul ∉ t) : s = t := by
  have hle : ∀ {s t : List Char}, IsString mem s → IsString mem t → nul ∉ t → t.length ≤ s.length := by
    intro s t hs ht hnt
    by_contra hlt
    have hlt' : s.length < t.length := by omega
    exact hnt (hs.2 ▸ ht.1 s.length hlt' ▸ List.getElem_mem hlt')
  refine List.ext_getElem (le_antisymm (hle ht hs hns) (hle hs ht hnt)) fun i h1 h2 => ?_
  rw [← hs.1 i h1, ht.1 i h2]

theorem testDrive_iff (path : List Char) : testDrive path = true ↔
    ∃ c rest, path = c :: DRV_SEP :: rest ∧ c ≠ nul := by
  rw [testDrive, decide_eq_true_eq]
  have hcolon : nul ≠ DRV_SEP := by decide
  constructor
  · intro ⟨h0, h1⟩
    match path, h0, h1 with
    | [], h0, _ => exact absurd rfl h0
    | [_], _, h1 => exact absurd h1 hcolon
    | c :: x :: rest, h0, h1 => exact ⟨c, rest, by rw [show x = DRV_SEP from h1], h0⟩
  · rintro ⟨c, rest, rfl, hc⟩
    exact ⟨hc, rfl⟩

theorem withSep_inj {s c : Char} {xs : List Char} (h : ∃ x ∈ xs, isDirSep x = true)
    (heq : withSep s xs = withSep c xs) : s = c := by
  obtain ⟨x, hx, hs⟩ := h
  have := List.map_inj_left.mp heq x hx
  rwa [if_pos hs, if_pos hs] at this

theorem unified_eq (path : List Char) : unified path = withSep ((path.find? isDirSep).getD nul) path := by
  rw [unified]
  cases h : path.find? isDirSep with
  | none =>
    refine (withSep_of_none _ fun c hc => ?_).symm
    exact Bool.eq_false_iff.mpr (List.find?_eq_none.mp h c hc)
  | some s => rfl

/-- behind the directory nothing is replaced -/
theorem unified_parts (xs : List Char) : unified xs =
    withSep (choice (parts xs).1 nul) (parts xs).1 ++ ((parts xs).2.1 ++ (parts xs).2.2) := by
  have hp := parts_shape xs
  have happ := parts_append xs
  rw [unified_eq, choice, if_pos rfl]
  generalize parts xs = p at hp happ ⊢
  subst happ
  have htail : ∀ c ∈ p.2.1 ++ p.2.2, isDirSep c = false := fun c hc =>
    (List.mem_append.mp hc).elim (hp.fname c) (hp.ext c)
  have hfind : (p.2.1 ++ p.2.2).find? isDirSep = none :=
    List.find?_eq_none.mpr fun c hc => Bool.eq_false_iff.mp (htail c hc)
  rw [List.find?_append, hfind, Option.or_none, withSep, List.map_append]
  exact congrArg (_ ++ ·) (withSep_of_none _ htail)

/-- where a drive was named by a separator, it counts as the first one -/
def DriveSep (path : List Char) : Prop :=
  testDrive path = true → isDirSep (path.getD 0 nul) = true →
    ∀ s, (path.drop 2).find? isDirSep = some s → s = path.getD 0 nul

/-- what is joined -/
theorem makepath_splitpath {L : Limits} {path : List Char} (hfit : Fits L path) (mem : ℕ → Char) :
    IsString (makepath mem (splitpath L Want.all path)).mem
      ((if testDrive path then path.take 2 else []) ++ unified (behindDrive path)) := by
  have hstart : startp Want.all path = behindDrive path := by
    rw [startp, behindDrive]
    by_cases h : testDrive path = true
    · rw [if_pos ⟨h, rfl⟩, if_pos h]
    · rw [if_neg fun h' => h h'.1, if_neg h]
  rw [splitpath_parts, hstart, List.take_of_length_le (Nat.le_sub_one_of_lt hfit.dir),
    List.take_of_length_le (Nat.le_sub_one_of_lt hfit.fname),
    List.take_of_length_le (Nat.le_sub_one_of_lt hfit.ext), unified_parts]
  refine makepath_parts mem ?_ (parts_shape _)
  by_cases h : testDrive path = true
  · obtain ⟨c, rest, rfl, -⟩ := (testDrive_iff path).mp h
    rw [if_pos h]
    exact .inr ⟨c, rfl⟩
  · rw [if_neg h]
    exact .inl rfl

/-- the joined path is the unified one -/
theorem drive_unified_iff (path : List Char) :
    (if testDrive path then path.take 2 else []) ++ unified (behindDrive path) = unified path ↔
      DriveSep path := by
  by_cases h : testDrive path = true
  · have hb : behindDrive path = path.drop 2 := if_pos h
    rw [if_pos h, hb]
    obtain ⟨c, rest, rfl, -⟩ := (testDrive_iff path).mp h
    show c :: DRV_SEP :: unified rest = _ ↔ _
    have hcolon : ¬ isDirSep DRV_SEP = true := by decide
    by_cases hs : isDirSep c = true
    · have hu : unified (c :: DRV_SEP :: rest) = c :: DRV_SEP :: withSep c rest := by
        rw [unified_eq, List.find?_cons_of_pos hs, Option.getD_some, withSep, List.map_cons,
          List.map_cons, if_pos hs, if_neg hcolon]
        rfl
      have hd : DriveSep (c :: DRV_SEP :: rest) ↔ ∀ s, rest.find? isDirSep = some s → s = c :=
        ⟨fun hd => hd h hs, fun hd _ _ => hd⟩
      rw [hu, hd, List.cons_inj_right, List.cons_inj_right, unified_eq]
      cases hf : rest.find? isDirSep with
      | none =>
        have hnone : ∀ x ∈ rest, isDirSep x = false := fun x hx =>
          Bool.eq_false_iff.mpr (List.find?_eq_none.mp hf x hx)
        rw [withSep_of_none _ hnone, withSep_of_none _ hnone]
        exact iff_of_true rfl fun s hs => absurd hs (Option.some_ne_none s).symm
      | some s =>
        refine ⟨fun heq s' hs' => ?_, fun heq => by rw [heq s rfl]; rfl⟩
        rw [← Option.some.inj hs']
        exact withSep_inj ⟨s, List.mem_of_find?_eq_some hf, List.find?_some hf⟩ heq
    · have hu : unified (c :: DRV_SEP :: rest) = c :: DRV_SEP :: unified rest := by
        rw [unified_eq, unified_eq, List.find?_cons_of_neg hs, List.find?_cons_of_neg hcolon, withSep,
          List.map_cons, List.map_cons, if_neg hs, if_neg hcolon]
        rfl
      exact iff_of_true hu.symm fun _ hs' => absurd hs' hs
  · have hb : behindDrive path = path := if_neg h
    rw [if_neg h, hb]
    exact iff_of_true rfl fun h' => absurd h' h

theorem nul_notMem_unified {path : List Char} (h : nul ∉ path) : nul ∉ unified path := by
  rw [unified]
  cases hf : path.find? isDirSep with
  | none => exact h
  | some s =>
    intro hmem
    obtain ⟨c, hc, heq⟩ := List.mem_map.mp hmem
    by_cases hs : isDirSep c = true
    · rw [if_pos hs] at heq
      exact isDirSep_ne_nul (List.find?_some hf) heq
    · rw [if_neg hs] at heq
      exact h (heq ▸ hc)

/-! ## a drive that is not taken off -/

/-- as long as the limit, and the text again and again -/
def Repeats (p xs : List Char) (m : ℕ) : Prop :=
  xs.length = m ∧ ∀ i < m, xs[i]? = p[i % p.length]?

/-- with a text in front, and cut, a part is the same only where it repeats this text -/
theorem take_append_iff {p xs : List Char} {m : ℕ} (hp : p ≠ []) (h : xs.length ≤ m) :
    (p ++ xs).take m = xs ↔ Repeats p xs m := by
  have hpos := List.length_pos_iff.mpr hp
  constructor
  · intro heq
    have hlen := congrArg List.length heq
    rw [List.length_take, List.length_append] at hlen
    refine ⟨by omega, fun i => ?_⟩
    induction i using Nat.strong_induction_on with
    | _ i ih =>
      intro hi
      rw [← heq, List.getElem?_take_of_lt hi]
      by_cases hip : i < p.length
      · rw [List.getElem?_append_left hip, Nat.mod_eq_of_lt hip]
      · have hip' : p.length ≤ i := not_lt.mp hip
        rw [List.getElem?_append_right hip', ih (i - p.length) (by omega) (by omega),
          ← Nat.mod_eq_sub_mod hip']
  · intro ⟨hm, hrep⟩
    refine List.ext_getElem? fun i => ?_
    by_cases hi : i < m
    · rw [List.getElem?_take_of_lt hi]
      by_cases hip : i < p.length
      · rw [List.getElem?_append_left hip, hrep i hi, Nat.mod_eq_of_lt hip]
      · have hip' : p.length ≤ i := not_lt.mp hip
        rw [List.getElem?_append_right hip', hrep i hi, hrep (i - p.length) (by omega),
          ← Nat.mod_eq_sub_mod hip']
    · have h1 : ((p ++ xs).take m).length ≤ i := by
        rw [List.length_take]
        omega
      rw [List.getElem?_eq_none h1, List.getElem?_eq_none (by omega)]

/-- the parts of a path that still has its drive -/
theorem parts_cons_colon (c : Char) (rest : List Char) : parts (c :: DRV_SEP :: rest) =
    if (parts rest).1 ≠ [] then (c :: DRV_SEP :: (parts rest).1, (parts rest).2.1, (parts rest).2.2)
    else if isDirSep c then ([c], DRV_SEP :: (parts rest).2.1, (parts rest).2.2)
    else if c = EXT_SEP ∧ (parts rest).2.2 = [] then ([], [], c :: DRV_SEP :: (parts rest).2.1)
    else ([], c :: DRV_SEP :: (parts rest).2.1, (parts rest).2.2) := by
  have hcolon : parts (DRV_SEP :: rest) = if (parts rest).1 ≠ []
      then (DRV_SEP :: (parts rest).1, (parts rest).2.1, (parts rest).2.2)
      else ([], DRV_SEP :: (parts rest).2.1, (parts rest).2.2) := by
    have hne : DRV_SEP ≠ EXT_SEP := by decide
    have hsep : ¬ isDirSep DRV_SEP = true := by decide
    have hdot : ¬ (DRV_SEP = EXT_SEP ∧ (parts rest).2.2 = []) := fun h => hne h.1
    rw [parts]
    dsimp only
    rw [if_neg hsep, if_neg hdot]
  rw [parts, hcolon]
  by_cases hd : (parts rest).1 = []
  · rw [if_neg (not_not.mpr hd), if_neg (not_not.mpr hd)]
    dsimp only
    rw [if_neg (not_not.mpr rfl)]
  · rw [if_pos hd, if_pos hd]
    dsimp only
    rw [if_pos (List.cons_ne_nil _ _)]

/-- each part that is stored is the one that is stored with all four -/
structure Agrees (want : Want) (stored all : Parts) : Prop where
  drive : want.drive = true → stored.drive = all.drive
  dir : want.dir = true → stored.dir = all.dir
  fname : want.fname = true → stored.fname = all.fname
  ext : want.ext = true → stored.ext = all.ext

theorem repeats_nil {p : List Char} {m : ℕ} (h : 0 < m) : ¬ Repeats p [] m := fun hr => by
  have := hr.1
  rw [List.length_nil] at this
  omega

/-- where the parts that are stored do not change with the drive in front -/
structure Intact (L : Limits) (want : Want) (c : Char) (rest : List Char) : Prop where
  dir : want.dir = true → ((parts rest).1 = [] ∧ isDirSep c = false) ∨
    Repeats [c, DRV_SEP] (parts rest).1 (L.dir - 1)
  fname : want.fname = true → (parts rest).1 ≠ [] ∨
    if isDirSep c then Repeats [DRV_SEP] (parts rest).2.1 (L.fname - 1)
    else if c = EXT_SEP ∧ (parts rest).2.2 = [] then (parts rest).2.1 = []
    else Repeats [c, DRV_SEP] (parts rest).2.1 (L.fname - 1)
  ext : want.ext = true → (parts rest).1 ≠ [] ∨ ¬ (c = EXT_SEP ∧ (parts rest).2.2 = [])

section
variable (c : Char) (rest : List Char) {m : ℕ}

theorem take_dir_iff (hm : 0 < m) (h : (parts rest).1.length ≤ m) :
    (parts (c :: DRV_SEP :: rest)).1.take m = (parts rest).1 ↔
      ((parts rest).1 = [] ∧ isDirSep c = false) ∨ Repeats [c, DRV_SEP] (parts rest).1 m := by
  rw [parts_cons_colon]
  generalize parts rest = p at h ⊢
  by_cases hd : p.1 = []
  · rw [if_neg (not_not.mpr hd), hd]
    by_cases hs : isDirSep c = true
    · rw [if_pos hs, hs]
      refine iff_of_false (fun h => ?_) fun h => ?_
      · rcases List.take_eq_nil_iff.mp h with h | h
        · omega
        · exact List.cons_ne_nil _ _ h
      · rcases h with h | h
        · exact Bool.false_ne_true h.2.symm
        · exact repeats_nil hm h
    · rw [if_neg hs]
      refine iff_of_true ?_ (.inl ⟨rfl, Bool.eq_false_iff.mpr hs⟩)
      split <;> exact List.take_nil
  · rw [if_pos hd, or_iff_right fun h => hd h.1]
    exact take_append_iff (p := [c, DRV_SEP]) (List.cons_ne_nil _ _) h

theorem take_fname_iff (h : (parts rest).2.1.length ≤ m) :
    (parts (c :: DRV_SEP :: rest)).2.1.take m = (parts rest).2.1 ↔ (parts rest).1 ≠ [] ∨
      if isDirSep c then Repeats [DRV_SEP] (parts rest).2.1 m
      else if c = EXT_SEP ∧ (parts rest).2.2 = [] then (parts rest).2.1 = []
      else Repeats [c, DRV_SEP] (parts rest).2.1 m := by
  rw [parts_cons_colon]
  generalize parts rest = p at h ⊢
  by_cases hd : p.1 = []
  · rw [if_neg (not_not.mpr hd), or_iff_right (not_not.mpr hd)]
    split_ifs with hs he
    · exact take_append_iff (p := [DRV_SEP]) (List.cons_ne_nil _ _) h
    · show ([] : List Char).take m = p.2.1 ↔ _
      rw [List.take_nil]
      exact eq_comm
    · exact take_append_iff (p := [c, DRV_SEP]) (List.cons_ne_nil _ _) h
  · rw [if_pos hd]
    exact iff_of_true (List.take_of_length_le h) (.inl hd)

theorem take_ext_iff (hm : 0 < m) (h : (parts rest).2.2.length ≤ m) :
    (parts (c :: DRV_SEP :: rest)).2.2.take m = (parts rest).2.2 ↔
      (parts rest).1 ≠ [] ∨ ¬ (c = EXT_SEP ∧ (parts rest).2.2 = []) := by
  have hdot : ¬ isDirSep EXT_SEP = true := by decide
  rw [parts_cons_colon]
  generalize parts rest = p at h ⊢
  by_cases hd : p.1 = []
  · rw [if_neg (not_not.mpr hd), or_iff_right (not_not.mpr hd)]
    by_cases he : c = EXT_SEP ∧ p.2.2 = []
    · rw [if_pos he, he.1, if_neg hdot, he.2]
      refine iff_of_false (fun h => ?_) (not_not.mpr ⟨rfl, rfl⟩)
      rcases List.take_eq_nil_iff.mp h with h | h
      · omega
      · exact List.cons_ne_nil _ _ h
    · rw [if_neg he]
      refine iff_of_true ?_ he
      split <;> exact List.take_of_length_le h
  · rw [if_pos hd]
    exact iff_of_true (List.take_of_length_le h) (.inl hd)

end

theorem startp_all (path : List Char) : startp Want.all path = behindDrive path := by
  rw [startp, behindDrive]
  by_cases h : testDrive path = true
  · rw [if_pos ⟨h, rfl⟩, if_pos h]
  · rw [if_neg fun h' => h h'.1, if_neg h]

/-- the drive does no harm: it is taken off, or there is none, or the other parts do not change -/
def Harmless (L : Limits) (want : Want) (path : List Char) : Prop :=
  want.drive = true ∨ testDrive path = false ∨ Intact L want (path.getD 0 nul) (path.drop 2)

theorem stored_iff {buf : Bool} {x y : List Char} :
    (buf = true → (if buf then some x else none) = (if true then some y else none)) ↔
      (buf = true → x = y) := by
  refine forall_congr' fun h => ?_
  rw [if_pos h, if_pos rfl]
  exact Option.some_inj

theorem sameParts_iff {L : Limits} {path : List Char} (want : Want) (hfit : Fits L path) :
    Agrees want (splitpath L want path) (splitpath L Want.all path) ↔ Harmless L want path := by
  have hd := Nat.le_sub_one_of_lt hfit.dir
  have hf := Nat.le_sub_one_of_lt hfit.fname
  have he := Nat.le_sub_one_of_lt hfit.ext
  rw [splitpath_parts, splitpath_parts, startp_all]
  by_cases hdrive : testDrive path = true ∧ want.drive = false
  · obtain ⟨ht, hw⟩ := hdrive
    have hstart : startp want path = path := if_neg fun h => Bool.false_ne_true (hw ▸ h.2)
    have hrest : behindDrive path = path.drop 2 := if_pos ht
    rw [hstart]
    rw [hrest] at hd hf he ⊢
    obtain ⟨c, rest, rfl, -⟩ := (testDrive_iff path).mp ht
    have hdrop : (c :: DRV_SEP :: rest).drop 2 = rest := rfl
    rw [hdrop] at hd hf he ⊢
    have hharm : Harmless L want (c :: DRV_SEP :: rest) ↔ Intact L want c rest := by
      refine ⟨fun h => ?_, fun h => .inr (.inr h)⟩
      rcases h with h | h | h
      · exact absurd (hw.symm.trans h) Bool.false_ne_true
      · exact absurd (h.symm.trans ht) Bool.false_ne_true
      · exact h
    have h1 := take_dir_iff c rest (Nat.sub_pos_of_lt L.dir_pos) hd
    have h2 := take_fname_iff c rest hf
    have h3 := take_ext_iff c rest (Nat.sub_pos_of_lt L.ext_pos) he
    rw [hharm, List.take_of_length_le hd, List.take_of_length_le hf, List.take_of_length_le he]
    constructor
    · intro h
      exact ⟨fun hw' => h1.mp (stored_iff.mp h.dir hw'), fun hw' => h2.mp (stored_iff.mp h.fname hw'),
        fun hw' => h3.mp (stored_iff.mp h.ext hw')⟩
    · intro h
      exact ⟨fun hw' => absurd (hw.symm.trans hw') Bool.false_ne_true,
        stored_iff.mpr fun hw' => h1.mpr (h.dir hw'), stored_iff.mpr fun hw' => h2.mpr (h.fname hw'),
        stored_iff.mpr fun hw' => h3.mpr (h.ext hw')⟩
  · have hstart : startp want path = behindDrive path := by
      rw [startp, behindDrive]
      by_cases ht : testDrive path = true
      · rw [if_pos ht, if_pos ⟨ht, Bool.not_eq_false _ |>.mp fun h => hdrive ⟨ht, h⟩⟩]
      · rw [if_neg ht, if_neg fun h => ht h.1]
    rw [hstart]
    refine iff_of_true ⟨fun h => if_pos h, fun h => if_pos h, fun h => if_pos h, fun h => if_pos h⟩ ?_
    by_cases ht : testDrive path = true
    · exact .inl (Bool.not_eq_false _ |>.mp fun h => hdrive ⟨ht, h⟩)
    · exact .inr (.inl (Bool.not_eq_true _ |>.mp ht))

/-! ## where both halves hold -/

/-- what is stored does not depend on the choice of the buffers, and the parts are joined to the path
again, with one separator -/
theorem splitpath_makepath_iff {L : Limits} {path : List Char} (hnul : nul ∉ path)
    (hfit : Fits L path) (want : Want) (mem : ℕ → Char) :
    (Agrees want (splitpath L want path) (splitpath L Want.all path) ∧
      IsString (makepath mem (splitpath L Want.all path)).mem (unified path)) ↔
      Harmless L want path ∧ DriveSep path := by
  refine and_congr (sameParts_iff want hfit) ?_
  rw [← drive_unified_iff]
  have hjoin := makepath_splitpath hfit mem
  refine ⟨fun h => isString_inj hjoin h ?_ (nul_notMem_unified hnul), fun h => h ▸ hjoin⟩
  intro hmem
  rcases List.mem_append.mp hmem with h | h
  · by_cases ht : testDrive path = true
    · rw [if_pos ht] at h
      exact hnul (List.mem_of_mem_take h)
    · rw [if_neg ht] at h
      exact absurd h List.not_mem_nil
  · refine nul_notMem_unified (fun h' => hnul ?_) h
    rw [behindDrive] at h'
    by_cases ht : testDrive path = true
    · rw [if_pos ht] at h'
      exact List.mem_of_mem_drop h'
    · rwa [if_neg ht] at h'

/-- the drive and the name of `c:/work\a.txt`, which is joined with `/` -/
theorem work_again :
    Agrees ⟨true, false, true, false⟩
        (splitpath Limits.dos ⟨true, false, true, false⟩
          ['c', ':', '/', 'w', 'o', 'r', 'k', '\\', 'a', '.', 't', 'x', 't'])
        (splitpath Limits.dos Want.all
          ['c', ':', '/', 'w', 'o', 'r', 'k', '\\', 'a', '.', 't', 'x', 't']) ∧
      IsString (makepath (fun _ => 'x') (splitpath Limits.dos Want.all
          ['c', ':', '/', 'w', 'o', 'r', 'k', '\\', 'a', '.', 't', 'x', 't'])).mem
        (unified ['c', ':', '/', 'w', 'o', 'r', 'k', '\\', 'a', '.', 't', 'x', 't']) :=
  (splitpath_makepath_iff (by decide) ⟨by decide, by decide, by decide⟩ _ _).mpr
    ⟨.inl rfl, fun _ h => absurd h (by decide)⟩

/-- of `c:foo` the name alone comes with the drive -/
theorem name_with_drive :
    (nul ∉ ['c', ':', 'f', 'o', 'o'] ∧ Fits Limits.lfn ['c', ':', 'f', 'o', 'o']) ∧
      (splitpath Limits.lfn ⟨false, false, true, false⟩ ['c', ':', 'f', 'o', 'o']).fname
        = some ['c', ':', 'f', 'o', 'o'] ∧
      ¬ Agrees ⟨false, false, true, false⟩
        (splitpath Limits.lfn ⟨false, false, true, false⟩ ['c', ':', 'f', 'o', 'o'])
        (splitpath Limits.lfn Want.all ['c', ':', 'f', 'o', 'o']) :=
  ⟨⟨by decide, ⟨by decide, by decide, by decide⟩⟩, by decide, fun h => absurd (h.fname rfl) (by decide)⟩

end DosPath
