import Highlight.Text.Bytes

/-!
# The bytes of cut texts

A text has as many bytes as its characters have together. So the part of a text before a position
has as many bytes as the position says, and the characters after a position have those that are
left.
-/

namespace Highlight.Text

@[simp] theorem sizeOf_nil : sizeOf [] = 0 := rfl

@[simp] theorem sizeOf_cons (c : Char) (cs : List Char) :
    sizeOf (c :: cs) = c.utf8Size + sizeOf cs := rfl

theorem sizeOf_append (cs ds : List Char) : sizeOf (cs ++ ds) = sizeOf cs + sizeOf ds := by
  induction cs with
  | nil => exact (Nat.zero_add _).symm
  | cons c cs ih => rw [List.cons_append, sizeOf_cons, sizeOf_cons, ih, Nat.add_assoc]

theorem utf8ByteSize_ofList (cs : List Char) : (String.ofList cs).utf8ByteSize = sizeOf cs := by
  induction cs with
  | nil => rfl
  | cons c cs ih =>
    rw [show c :: cs = [c] ++ cs from rfl, String.ofList_append, String.utf8ByteSize_append, ih,
      ← String.singleton_eq_ofList, String.utf8ByteSize_singleton]
    rfl

/-- A line is read with its end, and is one byte longer so. -/
theorem utf8ByteSize_append_lineEnd (line : String) :
    (line ++ "\n").utf8ByteSize = line.utf8ByteSize + 1 := by
  rw [String.utf8ByteSize_append]
  rfl

theorem sizeOf_toList (s : String) : sizeOf s.toList = s.utf8ByteSize := by
  rw [← utf8ByteSize_ofList, String.ofList_toList]

theorem sizeOf_takeBytes? {n : Nat} {cs ds : List Char} (h : takeBytes? n cs = some ds) :
    sizeOf ds = n := by
  induction cs generalizing n ds with
  | nil =>
    cases n with
    | zero =>
      obtain rfl : [] = ds := by simpa [takeBytes?] using h
      rfl
    | succ n => simp [takeBytes?] at h
  | cons c cs ih =>
    cases n with
    | zero =>
      obtain rfl : [] = ds := by simpa [takeBytes?] using h
      rfl
    | succ n =>
      rw [takeBytes?] at h
      split at h
      · next hle =>
        obtain ⟨es, hes, rfl⟩ := Option.map_eq_some_iff.1 h
        rw [sizeOf_cons, ih hes]
        omega
      · exact absurd h (by simp)

/-- What is left after some bytes comes after characters that have as many. -/
theorem exists_of_dropBytes? {n : Nat} {cs ds : List Char} (h : dropBytes? n cs = some ds) :
    ∃ front, cs = front ++ ds ∧ sizeOf front = n := by
  induction cs generalizing n with
  | nil =>
    cases n with
    | zero =>
      obtain rfl : [] = ds := by simpa [dropBytes?] using h
      exact ⟨[], rfl, rfl⟩
    | succ n => simp [dropBytes?] at h
  | cons c cs ih =>
    cases n with
    | zero =>
      obtain rfl : c :: cs = ds := by simpa [dropBytes?] using h
      exact ⟨[], rfl, rfl⟩
    | succ n =>
      rw [dropBytes?] at h
      split at h
      · next hle =>
        obtain ⟨front, rfl, hsize⟩ := ih h
        refine ⟨c :: front, rfl, ?_⟩
        rw [sizeOf_cons, hsize]
        omega
      · exact absurd h (by simp)

/-- The part of a text before a position has as many bytes as the position says. -/
theorem utf8ByteSize_before? {s t : String} {stop : Nat} (h : before? s stop = some t) :
    t.utf8ByteSize = stop := by
  obtain ⟨ds, hds, rfl⟩ := Option.map_eq_some_iff.1 h
  rw [utf8ByteSize_ofList]
  exact sizeOf_takeBytes? hds

end Highlight.Text
