import FlyingKV.ByteOrder
import Mathlib.Data.List.Nodup
import Mathlib.Data.List.Sort

set_option autoImplicit false

/-!
# A flat directory of files

File names are an arbitrary type with decidable equality, every name occurs at
most once, and nothing is promised about the order in which the files are listed.
-/
namespace FlyingKV.FileDir
open ByteOrder

structure Dir (N : Type) where
  files : List (N × Bytes)
  nodup : (files.map Prod.fst).Nodup

variable {N : Type} [DecidableEq N]

namespace Dir

def empty : Dir N := ⟨[], List.nodup_nil⟩

def get (d : Dir N) (n : N) : Option Bytes := d.files.lookup n

def exist (d : Dir N) (n : N) : Bool := (d.get n).isSome

def names (d : Dir N) : List N := d.files.map Prod.fst

theorem filter_nodup (d : Dir N) (n : N) :
    ((d.files.filter (fun f => f.1 ≠ n)).map Prod.fst).Nodup :=
  d.nodup.sublist (List.filter_sublist.map _)

def unlink (d : Dir N) (n : N) : Dir N :=
  ⟨d.files.filter (fun f => f.1 ≠ n), d.filter_nodup n⟩

/-- Create the file, or replace all of its bytes. -/
def put (d : Dir N) (n : N) (bs : Bytes) : Dir N :=
  ⟨(n, bs) :: d.files.filter (fun f => f.1 ≠ n), by
    rw [List.map_cons, List.nodup_cons]
    refine ⟨?_, d.filter_nodup n⟩
    simp [List.mem_map]⟩

/-- The source name must exist; an existing target is replaced. -/
def rename (d : Dir N) (src dst : N) : Dir N :=
  match d.get src with
  | some bs => (d.unlink src).put dst bs
  | none => d

theorem lookup_filter (l : List (N × Bytes)) (n m : N) :
    (l.filter (fun f => f.1 ≠ n)).lookup m = if m = n then none else l.lookup m := by
  induction l with
  | nil => simp
  | cons f l ih =>
    obtain ⟨k, bs⟩ := f
    by_cases hk : k = n
    · subst k
      by_cases hm : m = n
      · simpa [hm] using ih
      · have hb : (m == n) = false := beq_eq_false_iff_ne.mpr hm
        simpa [hm, List.lookup_cons, hb] using ih
    · simp only [ne_eq, hk, not_false_eq_true, decide_true, List.filter_cons_of_pos,
        List.lookup_cons]
      by_cases hm : m = k
      · subst m
        simp [hk]
      · have hb : (m == k) = false := beq_eq_false_iff_ne.mpr hm
        simpa [hb] using ih

theorem get_unlink (d : Dir N) (n m : N) :
    (d.unlink n).get m = if m = n then none else d.get m :=
  lookup_filter d.files n m

theorem get_put (d : Dir N) (n m : N) (bs : Bytes) :
    (d.put n bs).get m = if m = n then some bs else d.get m := by
  by_cases hm : m = n
  · subst m
    simp [get, put]
  · have hb : (m == n) = false := beq_eq_false_iff_ne.mpr hm
    have h := lookup_filter d.files n m
    simp only [get, put, List.lookup_cons, hb, hm, if_false] at h ⊢
    exact h

@[simp] theorem get_unlink_self (d : Dir N) (n : N) : (d.unlink n).get n = none := by
  simp [get_unlink]

@[simp] theorem get_put_self (d : Dir N) (n : N) (bs : Bytes) : (d.put n bs).get n = some bs := by
  simp [get_put]

theorem get_unlink_ne (d : Dir N) {n m : N} (h : m ≠ n) : (d.unlink n).get m = d.get m := by
  simp [get_unlink, h]

theorem get_put_ne (d : Dir N) {n m : N} (bs : Bytes) (h : m ≠ n) :
    (d.put n bs).get m = d.get m := by
  simp [get_put, h]

theorem get_rename (d : Dir N) {src dst : N} {bs : Bytes} (h : d.get src = some bs) (m : N) :
    (d.rename src dst).get m =
      if m = dst then some bs else if m = src then none else d.get m := by
  simp only [rename, h, get_put, get_unlink]

theorem lookup_isSome_iff (l : List (N × Bytes)) (n : N) :
    (l.lookup n).isSome ↔ n ∈ l.map Prod.fst := by
  induction l with
  | nil => simp
  | cons f l ih =>
    obtain ⟨k, bs⟩ := f
    by_cases hk : n = k
    · simp [hk]
    · have hb : (n == k) = false := beq_eq_false_iff_ne.mpr hk
      simp only [List.lookup_cons, hb, List.map_cons, List.mem_cons, hk, false_or]
      exact ih

theorem mem_names (d : Dir N) (n : N) : n ∈ d.names ↔ d.get n ≠ none := by
  rw [names, ← lookup_isSome_iff, get, ← Option.isSome_iff_ne_none]

omit [DecidableEq N] in
theorem nodup_names (d : Dir N) : d.names.Nodup := d.nodup

end Dir

end FlyingKV.FileDir
