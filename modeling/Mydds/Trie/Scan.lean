import Mydds.Trie.Split

/-!
# The loop of `split`

`splitScan` is the body of `Trie::split` with its positions: a `while` loop that looks for the next
delimiter from `start` on, and the last part behind it.  `splitScan_eq` says that the loop ends,
and that what it leaves is `split` of the rest of the path.

`split_forgets` adds what is lost: the tokens joined with a slash are the path without a slash at
its end, so two paths have the same tokens exactly if one is the other closed by a slash.
-/

namespace Mydds.Trie

/-- `path.find(delimiter, start)`, `none` for `npos`. -/
def findFrom (path : Bytes) (delimiter : UInt8) (start : Nat) : Option Nat :=
  ((path.drop start).findIdx? fun c => c == delimiter).map (start + ·)

/-- The rounds of the loop from `start` on, `fuel` at most, and the part behind the last
delimiter. -/
def splitScan (path : Bytes) (delimiter : UInt8) : Nat → Nat → List Token → Result (List Token)
  | 0, _, _ => .error .diverges
  | fuel + 1, start, tokens =>
    match findFrom path delimiter start with
    | some stop =>
      splitScan path delimiter fuel (stop + 1) (tokens ++ [(path.drop start).take (stop - start)])
    | none => .ok (if start < path.length then tokens ++ [path.drop start] else tokens)

variable {delimiter : UInt8}

theorem findIdx_of_not_mem {more : Bytes} (h : delimiter ∉ more) :
    (more.findIdx? fun c => c == delimiter) = none := by
  rw [List.findIdx?_eq_none_iff]
  intro c hc
  rw [beq_eq_false_iff_ne]
  rintro rfl
  exact h hc

theorem findFrom_of_not_mem {path : Bytes} {start : Nat} (h : delimiter ∉ path.drop start) :
    findFrom path delimiter start = none := by
  rw [findFrom, findIdx_of_not_mem h]
  rfl

theorem findFrom_of_append {path more rest : Bytes} {start : Nat}
    (h : path.drop start = more ++ delimiter :: rest) (hmore : delimiter ∉ more) :
    findFrom path delimiter start = some (start + more.length) := by
  rw [findFrom, h, List.findIdx?_append, findIdx_of_not_mem hmore]
  simp [List.findIdx?_cons]

theorem splitLoop_rest : ∀ {path token : Bytes}, delimiter ∉ path →
    splitLoop delimiter path token = if token ++ path = [] then [] else [token ++ path] := by
  intro path
  induction path with
  | nil =>
    intro token _
    rw [splitLoop, List.append_nil]
  | cons c path ih =>
    intro token h
    have hc : c ≠ delimiter := fun he => h (he ▸ List.mem_cons_self)
    have hpath : delimiter ∉ path := fun hmem => h (List.mem_cons_of_mem _ hmem)
    rw [splitLoop, if_neg hc, ih hpath, List.append_assoc, List.singleton_append]

/-- **The loop ends with the tokens of the rest of the path.** -/
theorem splitScan_eq (path : Bytes) : ∀ (fuel start : Nat) (tokens : List Token),
    start ≤ path.length → path.length - start < fuel →
    splitScan path delimiter fuel start tokens
      = .ok (tokens ++ split (path.drop start) delimiter) := by
  intro fuel
  induction fuel with
  | zero => exact fun start tokens _ hfuel => absurd hfuel (Nat.not_lt_zero _)
  | succ fuel ih =>
    intro start tokens hstart hfuel
    by_cases hmem : delimiter ∈ path.drop start
    · obtain ⟨more, rest, hdrop, hmore⟩ := List.eq_append_cons_of_mem hmem
      have hlen : path.length - start = more.length + (rest.length + 1) := by
        rw [← List.length_drop, hdrop, List.length_append, List.length_cons]
      -- the next round starts behind the delimiter
      have hrest : path.drop (start + more.length + 1) = rest := by
        rw [Nat.add_assoc, ← List.drop_drop, hdrop, ← List.drop_drop, List.drop_left]
        rfl
      have htoken : (path.drop start).take (start + more.length - start) = more := by
        rw [Nat.add_sub_cancel_left, hdrop, List.take_left]
      rw [splitScan, findFrom_of_append hdrop hmore]
      dsimp only
      rw [ih _ _ (by omega) (by omega), htoken, hrest, hdrop, split, split,
        splitLoop_token rest hmore, List.nil_append, List.append_assoc, List.singleton_append]
    · rw [splitScan, findFrom_of_not_mem hmem]
      dsimp only
      rw [split, splitLoop_rest hmem, List.nil_append]
      by_cases hlast : start < path.length
      · have hne : path.drop start ≠ [] := by
          rw [Ne, List.drop_eq_nil_iff]
          omega
        rw [if_pos hlast, if_neg hne]
      · have hnil : path.drop start = [] := List.drop_eq_nil_of_le (Nat.not_lt.mp hlast)
        rw [if_neg hlast, if_pos hnil, List.append_nil]

/-- **What `split` forgets.**  The loop ends, its tokens have no slash in them, and joined with a
slash they are the path without a slash at its end.  Two paths have the same tokens iff they are
equal, or one of them is the other closed by a slash. -/
theorem split_forgets :
    (∀ path : Bytes,
      (∀ fuel, path.length < fuel →
        splitScan path slash fuel 0 [] = .ok (split path slash)) ∧
      (∀ t ∈ split path slash, slash ∉ t) ∧
      [slash].intercalate (split path slash)
        = if path.getLast? = some slash then path.dropLast else path) ∧
    ∀ path path' : Bytes, split path slash = split path' slash ↔
      path = path' ∨ Closes slash path path' ∨ Closes slash path' path := by
  refine ⟨fun path => ⟨fun fuel hfuel => ?_, fun t ht => not_mem_of_mem_split ht,
    intercalate_split path⟩, split_eq_iff⟩
  have hscan := @splitScan_eq slash path fuel 0 [] (Nat.zero_le _) hfuel
  rwa [List.drop_zero, List.nil_append] at hscan

end Mydds.Trie
