import Mathlib.Data.List.Nodup

/-!
# Circular doubly linked lists

A ring has a head node that carries no element. `next` and `prev` are the two links of a node.

* `Ring next prev h l`            behind the head `h` follow the nodes `l`, in both directions;
* `ring_append`                   a ring cut in two: the links inside the parts, and the seam;
* `Ring.prev_next`, `Ring.next_prev`     the links of a node are inverse;
* `Ring.insert`, `Ring.replace`, `Ring.remove`    the edits, for links that change only at the seam.
-/

namespace Rings

section
variable {α : Type} {next prev next' prev' : α → α} {h x : α} {l r : List α}

/-- the nodes `l` behind the head `h` -/
structure Ring (next prev : α → α) (h : α) (l : List α) : Prop where
  forth : (h :: l).map next = l ++ [h]
  back : (l ++ [h]).map prev = h :: l
  nodup : (h :: l).Nodup

/-! ## the ends of a part -/

theorem dropLast_getLastD (h : α) (l : List α) : (h :: l).dropLast ++ [l.getLastD h] = h :: l := by
  induction l generalizing h with
  | nil => rfl
  | cons x l ih =>
    show h :: ((x :: l).dropLast ++ [(x :: l).getLastD h]) = _
    rw [List.getLastD_cons, ih x]

theorem headD_tail (h : α) (r : List α) : r.headD h :: (r ++ [h]).tail = r ++ [h] := by
  cases r <;> rfl

theorem getLastD_mem (h : α) (l : List α) : l.getLastD h ∈ h :: l := by
  have e := dropLast_getLastD h l
  rw [← e]
  exact List.mem_append_right _ (List.mem_singleton.mpr rfl)

theorem headD_mem (h : α) (r : List α) : r.headD h ∈ r ++ [h] := by
  rw [← headD_tail h r]
  exact List.mem_cons_self

theorem length_dropLast_cons (h : α) (l : List α) : ((h :: l).dropLast).length = l.length := by
  rw [List.length_dropLast, List.length_cons]
  rfl

/-- the node before the last one of a part is not the last one -/
theorem getLastD_notMem (hn : (h :: l).Nodup) : l.getLastD h ∉ (h :: l).dropLast := by
  rw [← dropLast_getLastD h l] at hn
  intro hm
  exact (List.nodup_append.mp hn).2.2 _ hm _ (List.mem_singleton.mpr rfl) rfl

theorem headD_notMem (hn : (r ++ [h]).Nodup) : r.headD h ∉ (r ++ [h]).tail := by
  rw [← headD_tail h r] at hn
  exact (List.nodup_cons.mp hn).1

theorem mem_of_dropLast {y : α} (hy : y ∈ (h :: l).dropLast) : y ∈ h :: l :=
  (List.dropLast_sublist _).subset hy

theorem mem_of_tail {y : α} (hy : y ∈ (r ++ [h]).tail) : y ∈ r ++ [h] :=
  List.mem_of_mem_tail hy

/-! ## cutting a ring -/

/-- a ring cut in two: the links of the nodes before the seam, of the seam, and behind it -/
theorem ring_append : Ring next prev h (l ++ r) ↔
    ((h :: l).dropLast.map next = l ∧ l.map prev = (h :: l).dropLast) ∧
      (next (l.getLastD h) = r.headD h ∧ prev (r.headD h) = l.getLastD h) ∧
      (r.map next = (r ++ [h]).tail ∧ (r ++ [h]).tail.map prev = r) ∧ (h :: (l ++ r)).Nodup := by
  have e1 : h :: (l ++ r) = (h :: l).dropLast ++ l.getLastD h :: r := by
    rw [List.append_cons, dropLast_getLastD]
    rfl
  have e2 : l ++ r ++ [h] = l ++ r.headD h :: (r ++ [h]).tail := by
    rw [headD_tail, List.append_assoc]
  constructor
  · rintro ⟨h1, h2, h3⟩
    rw [e1, e2, List.map_append, List.map_cons] at h1 h2
    obtain ⟨a1, a2⟩ := List.append_inj h1 (by rw [List.length_map, length_dropLast_cons])
    obtain ⟨b1, b2⟩ := List.append_inj h2 (by rw [List.length_map, length_dropLast_cons])
    obtain ⟨a2, a3⟩ := List.cons_eq_cons.mp a2
    obtain ⟨b2, b3⟩ := List.cons_eq_cons.mp b2
    exact ⟨⟨a1, b1⟩, ⟨a2, b2⟩, ⟨a3, b3⟩, h3⟩
  · rintro ⟨⟨a1, b1⟩, ⟨a2, b2⟩, ⟨a3, b3⟩, h3⟩
    refine ⟨?_, ?_, h3⟩
    · rw [e1, e2, List.map_append, List.map_cons, a1, a2, a3]
    · rw [e1, e2, List.map_append, List.map_cons, b1, b2, b3]

theorem Ring.next_last (hr : Ring next prev h (l ++ r)) : next (l.getLastD h) = r.headD h :=
  (ring_append.mp hr).2.1.1

theorem Ring.prev_head (hr : Ring next prev h (l ++ r)) : prev (r.headD h) = l.getLastD h :=
  (ring_append.mp hr).2.1.2

/-- the node behind the head -/
theorem Ring.next_ring (hr : Ring next prev h l) : next h = l.headD h :=
  (ring_append (l := []).mp hr).2.1.1

/-- the last node -/
theorem Ring.prev_ring (hr : Ring next prev h l) : prev h = l.getLastD h :=
  (ring_append (r := []).mp (by rwa [List.append_nil])).2.1.2

theorem Ring.next_mid (hr : Ring next prev h (l ++ x :: r)) : next x = r.headD h := by
  rw [List.append_cons] at hr
  have e := hr.next_last
  rwa [List.getLastD_concat] at e

theorem Ring.prev_mid (hr : Ring next prev h (l ++ x :: r)) : prev x = l.getLastD h :=
  hr.prev_head

/-- a ring reads the links of its own nodes only -/
theorem Ring.congr (hr : Ring next prev h l) (hn : ∀ y ∈ h :: l, next' y = next y)
    (hp : ∀ y ∈ h :: l, prev' y = prev y) : Ring next' prev' h l := by
  refine ⟨?_, ?_, hr.nodup⟩
  · rw [← hr.forth]
    exact List.map_congr_left hn
  · rw [← hr.back]
    refine List.map_congr_left fun y hy => hp y ?_
    rcases List.mem_append.mp hy with hy | hy
    · exact List.mem_cons_of_mem _ hy
    · rw [List.mem_singleton.mp hy]
      exact List.mem_cons_self

/-- the parts before and behind a node -/
theorem Ring.parts (hr : Ring next prev h (l ++ x :: r)) :
    ((h :: l).dropLast.map next = l ∧ l.map prev = (h :: l).dropLast) ∧
      (r.map next = (r ++ [h]).tail ∧ (r ++ [h]).tail.map prev = r) ∧ (h :: (l ++ r)).Nodup := by
  obtain ⟨h1, -, ⟨h3, h4⟩, hn⟩ := ring_append.mp hr
  have hn' : (h :: (l ++ r)).Nodup :=
    hn.sublist (((List.sublist_cons_self x r).append_left l).cons_cons h)
  have h5 : r.map next = (r ++ [h]).tail := by
    have e : next x :: r.map next = r ++ [h] := h3
    rw [← headD_tail] at e
    exact (List.cons_eq_cons.mp e).2
  have h6 : (r ++ [h]).tail.map prev = r := by
    have e : (r ++ [h]).map prev = x :: r := h4
    rw [← headD_tail, List.map_cons] at e
    exact (List.cons_eq_cons.mp e).2
  exact ⟨h1, ⟨h5, h6⟩, hn'⟩

/-- from a node on and back again -/
theorem Ring.prev_next (hr : Ring next prev h l) (hx : x ∈ h :: l) : prev (next x) = x := by
  have e : (h :: l).map (prev ∘ next) = (h :: l).map id := by
    rw [← List.map_map, hr.forth, hr.back, List.map_id]
  exact List.map_inj_left.mp e x hx

theorem mem_ring_perm {y : α} : y ∈ l ++ [h] ↔ y ∈ h :: l := by
  rw [List.mem_append, List.mem_singleton, List.mem_cons, or_comm]

theorem Ring.next_mem (hr : Ring next prev h l) (hx : x ∈ h :: l) : next x ∈ h :: l := by
  rw [← mem_ring_perm, ← hr.forth]
  exact List.mem_map_of_mem hx

theorem Ring.prev_mem (hr : Ring next prev h l) (hx : x ∈ h :: l) : prev x ∈ h :: l := by
  rw [← hr.back]
  exact List.mem_map_of_mem (mem_ring_perm.mpr hx)

theorem Ring.next_prev (hr : Ring next prev h l) (hx : x ∈ h :: l) : next (prev x) = x := by
  have e : (l ++ [h]).map (next ∘ prev) = (l ++ [h]).map id := by
    rw [← List.map_map, hr.back, hr.forth, List.map_id]
  exact List.map_inj_left.mp e x (mem_ring_perm.mpr hx)

/-! ## edits at a seam -/

theorem nodup_back (hn : (h :: (l ++ r)).Nodup) : (r ++ [h]).Nodup := by
  obtain ⟨h1, h2⟩ := List.nodup_cons.mp hn
  refine List.nodup_append.mpr ⟨(List.nodup_append.mp h2).2.1, List.nodup_singleton h, ?_⟩
  intro y hy z hz e
  rw [e, List.mem_singleton.mp hz] at hy
  exact h1 (List.mem_append_right _ hy)

theorem nodup_front (hn : (h :: (l ++ r)).Nodup) : (h :: l).Nodup :=
  hn.sublist ((List.sublist_append_left l r).cons_cons h)

/-- the parts before and behind a seam keep their links when the links change only at the seam -/
theorem parts_congr (hn : (h :: (l ++ r)).Nodup)
    (hl : (h :: l).dropLast.map next = l ∧ l.map prev = (h :: l).dropLast)
    (hr : r.map next = (r ++ [h]).tail ∧ (r ++ [h]).tail.map prev = r)
    (kn : ∀ y ∈ h :: (l ++ r), y ≠ l.getLastD h → next' y = next y)
    (kp : ∀ y ∈ h :: (l ++ r), y ≠ r.headD h → prev' y = prev y) :
    ((h :: l).dropLast.map next' = l ∧ l.map prev' = (h :: l).dropLast) ∧
      (r.map next' = (r ++ [h]).tail ∧ (r ++ [h]).tail.map prev' = r) := by
  have h1 := getLastD_notMem (nodup_front hn)
  have h2 := headD_notMem (nodup_back hn)
  obtain ⟨n1, n2⟩ := List.nodup_cons.mp hn
  obtain ⟨-, -, hd⟩ := List.nodup_append.mp n2
  refine ⟨⟨?_, ?_⟩, ?_, ?_⟩
  · refine (List.map_congr_left fun y hy => kn y ?_ fun e => h1 (e ▸ hy)).trans hl.1
    exact (List.sublist_append_left (h :: l) r).subset (mem_of_dropLast hy)
  · refine (List.map_congr_left fun y hy => kp y (by simp [hy]) fun e => ?_).trans hl.2
    have hm := headD_mem h r
    rw [← e] at hm
    rcases List.mem_append.mp hm with hm | hm
    · exact hd y hy y hm rfl
    · exact n1 (List.mem_append_left _ (List.mem_singleton.mp hm ▸ hy))
  · refine (List.map_congr_left fun y hy => kn y (by simp [hy]) fun e => ?_).trans hr.1
    have hm := getLastD_mem h l
    rw [← e] at hm
    rcases List.mem_cons.mp hm with hm | hm
    · exact n1 (List.mem_append_right _ (hm ▸ hy))
    · exact hd y hm y hy rfl
  · refine (List.map_congr_left fun y hy => kp y ?_ fun e => h2 (e ▸ hy)).trans hr.2
    have hm := mem_of_tail hy
    rcases List.mem_append.mp hm with hm | hm
    · exact List.mem_cons_of_mem _ (List.mem_append_right _ hm)
    · rw [List.mem_singleton.mp hm]
      exact List.mem_cons_self

/-- `x` is linked in at the seam of `l` and `r` -/
theorem Ring.insert (hr : Ring next prev h (l ++ r)) (hx : x ∉ h :: (l ++ r))
    (n1 : next' (l.getLastD h) = x) (n2 : next' x = r.headD h)
    (p1 : prev' (r.headD h) = x) (p2 : prev' x = l.getLastD h)
    (kn : ∀ y ∈ h :: (l ++ r), y ≠ l.getLastD h → next' y = next y)
    (kp : ∀ y ∈ h :: (l ++ r), y ≠ r.headD h → prev' y = prev y) :
    Ring next' prev' h (l ++ x :: r) := by
  obtain ⟨h1, -, h3, hn⟩ := ring_append.mp hr
  obtain ⟨g1, g2⟩ := parts_congr hn h1 h3 kn kp
  refine ring_append.mpr ⟨g1, ⟨n1, p2⟩, ⟨?_, ?_⟩, ?_⟩
  · show next' x :: r.map next' = r ++ [h]
    rw [n2, g2.1, headD_tail]
  · show (r ++ [h]).map prev' = x :: r
    rw [← headD_tail, List.map_cons, p1, g2.2]
  · refine (List.perm_middle.cons h).nodup_iff.mpr ?_
    refine (List.Perm.swap x h (l ++ r)).nodup_iff.mpr ?_
    exact List.nodup_cons.mpr ⟨hx, hn⟩

/-- `x` gives its place to `y` -/
theorem Ring.replace {y : α} (hr : Ring next prev h (l ++ x :: r)) (hy : y ∉ h :: (l ++ r))
    (n1 : next' (l.getLastD h) = y) (n2 : next' y = r.headD h)
    (p1 : prev' (r.headD h) = y) (p2 : prev' y = l.getLastD h)
    (kn : ∀ z ∈ h :: (l ++ r), z ≠ l.getLastD h → next' z = next z)
    (kp : ∀ z ∈ h :: (l ++ r), z ≠ r.headD h → prev' z = prev z) :
    Ring next' prev' h (l ++ y :: r) := by
  obtain ⟨h1, h2, hn⟩ := hr.parts
  obtain ⟨g1, g2⟩ := parts_congr hn h1 h2 kn kp
  refine ring_append.mpr ⟨g1, ⟨n1, p2⟩, ⟨?_, ?_⟩, ?_⟩
  · show next' y :: r.map next' = r ++ [h]
    rw [n2, g2.1, headD_tail]
  · show (r ++ [h]).map prev' = y :: r
    rw [← headD_tail, List.map_cons, p1, g2.2]
  · refine (List.perm_middle.cons h).nodup_iff.mpr ?_
    refine (List.Perm.swap y h (l ++ r)).nodup_iff.mpr ?_
    exact List.nodup_cons.mpr ⟨hy, hn⟩

/-- `x` is taken out between `l` and `r` -/
theorem Ring.remove (hr : Ring next prev h (l ++ x :: r))
    (n1 : next' (l.getLastD h) = r.headD h) (p1 : prev' (r.headD h) = l.getLastD h)
    (kn : ∀ y ∈ h :: (l ++ r), y ≠ l.getLastD h → next' y = next y)
    (kp : ∀ y ∈ h :: (l ++ r), y ≠ r.headD h → prev' y = prev y) :
    Ring next' prev' h (l ++ r) := by
  obtain ⟨h1, h2, hn⟩ := hr.parts
  obtain ⟨g1, g2⟩ := parts_congr hn h1 h2 kn kp
  exact ring_append.mpr ⟨g1, ⟨n1, p1⟩, g2, hn⟩

end

end Rings
