import Mydds.Trie

/-!
# Paths and their tokens

`Trie.split` cuts a path at each slash and drops a last part that is empty.  The tokens
have no slash in them (`not_mem_of_mem_split`), and every list of such tokens is the split
of a path: `pathOf` closes each token with a slash, so that there is never anything left
behind the last one (`split_pathOf`).

What the split forgets is one slash at the end: `intercalate_split` joins the tokens to the path
without it, and `split_eq_iff` says which paths have the same tokens.
-/

namespace Mydds.Trie

variable {delimiter : UInt8}

theorem not_mem_concat {token : Bytes} (htoken : delimiter ∉ token) {c : UInt8}
    (hc : ¬ c = delimiter) : delimiter ∉ token ++ [c] := by
  intro hmem
  rcases List.mem_append.mp hmem with h | h
  · exact htoken h
  · exact hc (List.mem_singleton.mp h).symm

theorem not_mem_of_mem_splitLoop : ∀ {path token : Bytes}, delimiter ∉ token →
    ∀ t ∈ splitLoop delimiter path token, delimiter ∉ t := by
  intro path
  induction path with
  | nil =>
    intro token htoken t ht
    rw [splitLoop] at ht
    split at ht
    · exact absurd ht List.not_mem_nil
    · rw [List.mem_singleton.mp ht]
      exact htoken
  | cons c path ih =>
    intro token htoken t ht
    rw [splitLoop] at ht
    split at ht
    · rcases List.mem_cons.mp ht with rfl | hmem
      · exact htoken
      · exact ih List.not_mem_nil t hmem
    · rename_i hc
      exact ih (not_mem_concat htoken hc) t ht

theorem not_mem_of_mem_split {path : Bytes} {t : Token} (ht : t ∈ split path delimiter) :
    delimiter ∉ t :=
  not_mem_of_mem_splitLoop List.not_mem_nil t ht

theorem splitLoop_token (rest : Bytes) : ∀ {more token : Bytes}, delimiter ∉ more →
    splitLoop delimiter (more ++ delimiter :: rest) token
      = (token ++ more) :: splitLoop delimiter rest [] := by
  intro more
  induction more with
  | nil =>
    intro token _
    rw [List.nil_append, splitLoop, if_pos rfl, List.append_nil]
  | cons c more ih =>
    intro token hmore
    have hc : c ≠ delimiter := fun h => hmore (h ▸ List.mem_cons_self)
    have hmore' : delimiter ∉ more := fun h => hmore (List.mem_cons_of_mem _ h)
    rw [List.cons_append, splitLoop, if_neg hc, ih hmore', List.append_assoc, List.singleton_append]

/-- A path with these tokens. -/
def pathOf (delimiter : UInt8) (tokens : List Token) : Bytes :=
  tokens.flatMap (fun token => token ++ [delimiter])

/-- **Every list of tokens without a delimiter is the split of a path.** -/
theorem split_pathOf {tokens : List Token} (h : ∀ t ∈ tokens, delimiter ∉ t) :
    split (pathOf delimiter tokens) delimiter = tokens := by
  rw [split, pathOf]
  induction tokens with
  | nil => rfl
  | cons token tokens ih =>
    have htoken : delimiter ∉ token := h token List.mem_cons_self
    rw [List.flatMap_cons, List.append_assoc, List.singleton_append, splitLoop_token _ htoken,
      List.nil_append, ih fun t ht => h t (List.mem_cons_of_mem _ ht)]

/-! ### What is forgotten -/

/-- The path without a delimiter at its end. -/
def trimEnd (delimiter : UInt8) (path : Bytes) : Bytes :=
  if path.getLast? = some delimiter then path.dropLast else path

theorem trimEnd_append (token : Bytes) {path : Bytes} (h : path ≠ []) :
    trimEnd delimiter (token ++ path) = token ++ trimEnd delimiter path := by
  unfold trimEnd
  rw [List.getLast?_append_of_ne_nil token h]
  split
  · rw [List.dropLast_append_of_ne_nil h]
  · rfl

theorem splitLoop_eq_nil_iff : ∀ {path token : Bytes},
    splitLoop delimiter path token = [] ↔ path = [] ∧ token = [] := by
  intro path
  induction path with
  | nil =>
    intro token
    rw [splitLoop]
    split
    · simp_all
    · simp_all
  | cons c path ih =>
    intro token
    rw [splitLoop]
    split
    · simp
    · rw [ih]
      simp

theorem intercalate_splitLoop : ∀ {path token : Bytes}, delimiter ∉ token →
    [delimiter].intercalate (splitLoop delimiter path token)
      = trimEnd delimiter (token ++ path) := by
  intro path
  induction path with
  | nil =>
    intro token htoken
    have hlast : (token ++ []).getLast? ≠ some delimiter := by
      rw [List.append_nil]
      exact fun h => htoken (List.mem_of_getLast? h)
    rw [splitLoop, trimEnd, if_neg hlast]
    split
    · simp_all
    · simp
  | cons c path ih =>
    intro token htoken
    rw [splitLoop]
    split
    · rename_i hc
      subst hc
      cases path with
      | nil => simp [splitLoop, trimEnd]
      | cons d path =>
        -- there is another token behind this delimiter
        obtain ⟨t, ts, hts⟩ := List.exists_cons_of_ne_nil
          (fun h => List.cons_ne_nil d path (splitLoop_eq_nil_iff.mp h).1
            : splitLoop c (d :: path) [] ≠ [])
        have hrest := @ih [] List.not_mem_nil
        rw [hts] at hrest
        rw [hts, List.intercalate_cons_cons, hrest, List.nil_append,
          ← trimEnd_append _ (List.cons_ne_nil d path), List.append_assoc, List.singleton_append]
    · rename_i hc
      rw [ih (not_mem_concat htoken hc), List.append_assoc, List.singleton_append]

/-- **Joining the tokens gives back the path**, without a delimiter at its end. -/
theorem intercalate_split (path : Bytes) :
    [delimiter].intercalate (split path delimiter) = trimEnd delimiter path := by
  rw [split, intercalate_splitLoop List.not_mem_nil, List.nil_append]

/-- `path'` is `path` and a delimiter; `path` is not empty and does not end in one. -/
def Closes (delimiter : UInt8) (path path' : Bytes) : Prop :=
  path' = path ++ [delimiter] ∧ path ≠ [] ∧ path.getLast? ≠ some delimiter

theorem splitLoop_close : ∀ {path token : Bytes}, token ++ path ≠ [] → delimiter ∉ token →
    path.getLast? ≠ some delimiter →
    splitLoop delimiter (path ++ [delimiter]) token = splitLoop delimiter path token := by
  intro path
  induction path with
  | nil =>
    intro token hne _ _
    rw [List.append_nil] at hne
    simp [splitLoop, hne]
  | cons c path ih =>
    intro token _ htoken hlast
    rw [List.cons_append, splitLoop, splitLoop]
    split
    · rename_i hc
      have hpath : path ≠ [] := by
        intro h
        rw [h, hc] at hlast
        exact hlast rfl
      rw [ih (by simpa using hpath) List.not_mem_nil]
      rwa [List.getLast?_cons_of_ne_nil hpath] at hlast
    · rename_i hc
      apply ih
      · simp
      · exact not_mem_concat htoken hc
      · cases path with
        | nil => simp
        | cons d path => rwa [List.getLast?_cons_of_ne_nil (List.cons_ne_nil d path)] at hlast

theorem split_of_closes {path path' : Bytes} (h : Closes delimiter path path') :
    split path' delimiter = split path delimiter := by
  obtain ⟨rfl, hne, hlast⟩ := h
  exact splitLoop_close hne List.not_mem_nil hlast

theorem eq_append_of_trimEnd {path path' : Bytes} (hlast : path.getLast? ≠ some delimiter)
    (hlast' : path'.getLast? = some delimiter)
    (h : trimEnd delimiter path = trimEnd delimiter path') : path' = path ++ [delimiter] := by
  rw [trimEnd, trimEnd, if_neg hlast, if_pos hlast'] at h
  rw [h]
  exact (List.dropLast_append_getLast? delimiter hlast').symm

/-- **Two paths have the same tokens iff** they are equal, or one of them is the other closed by
a delimiter. -/
theorem split_eq_iff (path path' : Bytes) : split path delimiter = split path' delimiter ↔
    path = path' ∨ Closes delimiter path path' ∨ Closes delimiter path' path := by
  constructor
  · intro h
    have htrim : trimEnd delimiter path = trimEnd delimiter path' := by
      rw [← intercalate_split, ← intercalate_split, h]
    have hnil : path = [] ↔ path' = [] := by
      have hp := @splitLoop_eq_nil_iff delimiter path []
      have hp' := @splitLoop_eq_nil_iff delimiter path' []
      rw [split, split] at h
      rw [h] at hp
      simpa using hp.symm.trans hp'
    by_cases hlast : path.getLast? = some delimiter
    · by_cases hlast' : path'.getLast? = some delimiter
      · left
        rw [trimEnd, trimEnd, if_pos hlast, if_pos hlast'] at htrim
        rw [← List.dropLast_append_getLast? delimiter hlast, htrim]
        exact List.dropLast_append_getLast? delimiter hlast'
      · refine Or.inr (Or.inr ⟨eq_append_of_trimEnd hlast' hlast htrim.symm, ?_, hlast'⟩)
        intro h'
        rw [hnil.mpr h'] at hlast
        cases hlast
    · by_cases hlast' : path'.getLast? = some delimiter
      · refine Or.inr (Or.inl ⟨eq_append_of_trimEnd hlast hlast' htrim, ?_, hlast⟩)
        intro h'
        rw [hnil.mp h'] at hlast'
        cases hlast'
      · left
        rwa [trimEnd, trimEnd, if_neg hlast, if_neg hlast'] at htrim
  · intro h
    rcases h with rfl | h | h
    · rfl
    · exact (split_of_closes h).symm
    · exact split_of_closes h

end Mydds.Trie
