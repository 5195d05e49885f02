import Pke.Lookup
import Pke.Word

/-!
# Splitting a path (`strchr`, `strtok`, `get_base_name`)

`strtok` as it is in `string.c`: it scans a string in memory, overwrites the
slash after a token with a NUL and keeps the place to go on from in a static
variable. The rest of the development speaks of `Path.tokens`, which is a
function on lists; here the two are brought together.

* `StrAt m a l`: memory `m` holds the string `l` at `a`. Each function of
  `string.c` has one lemma that says what it does to strings.
* `Tokenizer.At t cur`: the static variable stands where the list `cur` is
  left. One call of `strtok` keeps it (`strtok_next`), so a run of calls
  returns the tokens of the list (`strtokAll_run`) and these are what lies
  between the slashes (`strtokAll_eq_components`).
* The loop of `lookup_final_dentry`, with the tokenizer running beside the
  kernel, is the walk over `Path.tokens` (`lookupFinalDentry_refines`).

The first call gets a new string and does not look at what the static
variable held, which may be a place in a buffer that is gone.
-/

namespace Pke

open Exec (Post get modify fault ofOption onFst onSnd bind_of_ok bind_of_error)

/-! ## Strings in memory -/

/-- The string `l` is at `a`, with its NUL. -/
def StrAt (m : Mem) : Nat → List UInt8 → Prop
  | a, [] => m a = 0
  | a, c :: l => c ≠ 0 ∧ m a = c ∧ StrAt m (a + 1) l

variable {n k str : Nat} {l : List UInt8} {token : Name}

namespace StrAt

variable {m m' : Mem} {a : Nat} {l l' : List UInt8}

theorem congr (h : StrAt m a l) (hm : ∀ k ≤ l.length, m' (a + k) = m (a + k)) : StrAt m' a l := by
  induction l generalizing a with
  | nil => exact (hm 0 le_rfl).trans h
  | cons c l ih =>
      obtain ⟨hc, hat, hrest⟩ := h
      refine ⟨hc, (hm 0 (Nat.zero_le _)).trans hat, ih hrest fun k hk => ?_⟩
      have := hm (k + 1) (by simpa using hk)
      rwa [Nat.add_right_comm, Nat.add_assoc a k 1]

theorem append (h : StrAt m a (l ++ l')) : StrAt m (a + l.length) l' := by
  induction l generalizing a with
  | nil => exact h
  | cons c l ih =>
      rw [List.length_cons, Nat.add_comm l.length 1, ← Nat.add_assoc]
      exact ih h.2.2

/-- A NUL over a character ends the string there. -/
theorem cut {c : UInt8} (h : StrAt m a (l ++ c :: l')) : StrAt (upd m (a + l.length) 0) a l := by
  induction l generalizing a with
  | nil => exact upd_self ..
  | cons d l ih =>
      obtain ⟨hd, hat, hrest⟩ := h
      refine ⟨hd, ?_, ?_⟩
      · rw [upd_ne (by simp), hat]
      · rw [List.length_cons, Nat.add_comm l.length 1, ← Nat.add_assoc]
        exact ih hrest

theorem eq_nil_iff (h : StrAt m a l) : m a = 0 ↔ l = [] := by
  cases l with
  | nil => exact iff_of_true h rfl
  | cons c l =>
      obtain ⟨hc, rfl, -⟩ := h
      exact iff_of_false hc (List.cons_ne_nil _ _)

theorem cstr_eq (h : StrAt m a l) (hn : l.length < n) : cstr m a n = l := by
  induction l generalizing a n with
  | nil =>
      obtain ⟨n, rfl⟩ := Nat.exists_eq_succ_of_ne_zero (Nat.ne_of_gt hn)
      exact if_pos h
  | cons c l ih =>
      obtain ⟨n, rfl⟩ := Nat.exists_eq_succ_of_ne_zero (Nat.ne_of_gt (Nat.zero_lt_of_lt hn))
      obtain ⟨hc, rfl, hrest⟩ := h
      rw [cstr, if_neg hc, ih hrest (by simpa using hn)]

end StrAt

/-- `strcpy`, for a string of less than `n` characters. -/
def strcpy : (n : Nat) → (dst src : Nat) → Mem → Option Mem
  | 0, _, _, _ => none
  | n + 1, dst, src, m =>
      if m src = 0 then some (upd m dst (m src))
      else strcpy n (dst + 1) (src + 1) (upd m dst (m src))

theorem strcpy_run (n dst : Nat) {src : Nat} {m : Mem} (h : StrAt m src l) (hn : l.length < n)
    (hapart : src + l.length < dst ∨ dst + l.length < src) :
    ∃ m', strcpy n dst src m = some m' ∧ StrAt m' dst l ∧
      ∀ a, a < dst ∨ dst + l.length < a → m' a = m a := by
  induction l generalizing n dst src m with
  | nil =>
      obtain ⟨n, rfl⟩ := Nat.exists_eq_succ_of_ne_zero (Nat.ne_of_gt hn)
      refine ⟨_, if_pos h, (upd_self ..).trans h, fun a ha => upd_ne ?_⟩
      simp only [List.length_nil] at ha
      omega
  | cons c l ih =>
      obtain ⟨n, rfl⟩ := Nat.exists_eq_succ_of_ne_zero (Nat.ne_of_gt (Nat.zero_lt_of_lt hn))
      obtain ⟨hc, rfl, hrest⟩ := h
      simp only [List.length_cons] at hn hapart
      have hrest' : StrAt (upd m dst (m src)) (src + 1) l :=
        hrest.congr fun k hk => upd_ne (by omega)
      obtain ⟨m', hrun, hat, hsame⟩ := ih n (dst + 1) hrest' (by omega) (by omega)
      refine ⟨m', (if_neg hc).trans hrun, ⟨hc, ?_, hat⟩, fun a ha => ?_⟩
      · rw [hsame dst (by omega), upd_self]
      · simp only [List.length_cons] at ha
        rw [hsame a (by omega), upd_ne (by omega)]

/-- `strchr`, on a string without its NUL: how far into it `ch` is. -/
def strchr : List UInt8 → UInt8 → Option Nat
  | [], ch => if ch = 0 then some 0 else none
  | c :: rest, ch => if c = ch then some 0 else (strchr rest ch).map (· + 1)

theorem strchr_slash {c : UInt8} (hc : c ≠ 0) : (strchr [slash] c).isSome = (c == slash) := by
  rcases eq_or_ne c slash with rfl | hne
  · rfl
  · simp [strchr, hc, hne, hne.symm]

/-- Where a loop `while (*p != '\0' && go(*p)) p++` stops, if that is among the
first `n` characters. -/
def scan (m : Mem) (go : UInt8 → Bool) : (n p : Nat) → Option Nat
  | 0, _ => none
  | n + 1, p => if m p ≠ 0 ∧ go (m p) then scan m go n (p + 1) else some p

theorem scan_run {m : Mem} (go go' : UInt8 → Bool) {a : Nat} (h : StrAt m a l)
    (hgo : ∀ c, c ≠ 0 → go c = go' c) (hn : l.length < n) :
    scan m go n a = some (a + (l.takeWhile go').length) := by
  induction l generalizing a n with
  | nil =>
      obtain ⟨n, rfl⟩ := Nat.exists_eq_succ_of_ne_zero (Nat.ne_of_gt hn)
      exact if_neg fun hc => hc.1 h
  | cons c l ih =>
      obtain ⟨n, rfl⟩ := Nat.exists_eq_succ_of_ne_zero (Nat.ne_of_gt (Nat.zero_lt_of_lt hn))
      obtain ⟨hc, rfl, hrest⟩ := h
      rw [scan, hgo _ hc, List.takeWhile_cons]
      by_cases hgo' : go' (m a) = true
      · rw [if_pos ⟨hc, hgo'⟩, if_pos hgo', ih hrest (by simpa using hn), List.length_cons]
        congr 1
        omega
      · rw [if_neg fun h => hgo' h.2, if_neg hgo']
        rfl

/-! ## What lies between slashes -/

/-- The non-empty pieces of a string between its slashes, in order. -/
def components (l : List UInt8) : List Name := (l.splitOn slash).filter fun t => !t.isEmpty

theorem components_slash (l : List UInt8) : components (slash :: l) = components l := by
  unfold components List.splitOn
  rw [List.splitOnP_cons_eq_if_modifyHead, if_pos (by simp)]
  rfl

theorem components_dropWhile (l : List UInt8) :
    components (l.dropWhile (· == slash)) = components l := by
  induction l with
  | nil => rfl
  | cons c l ih =>
      rw [List.dropWhile_cons]
      split
      · rename_i hc
        rw [ih, beq_iff_eq.mp hc, components_slash]
      · rfl

theorem components_token (hne : token ≠ []) (hslash : slash ∉ token) :
    components token = [token] := by
  have hfree : ∀ c ∈ token, (c == slash) = false := fun c hc =>
    beq_false_of_ne fun (h : c = slash) => hslash (h ▸ hc)
  unfold components List.splitOn
  rw [List.splitOnP_eq_singleton hfree]
  simp [hne]

theorem components_cons (hne : token ≠ []) (hslash : slash ∉ token) (l : List UInt8) :
    components (token ++ slash :: l) = token :: components l := by
  have hfree : ∀ c ∈ token, (c == slash) = false := fun c hc =>
    beq_false_of_ne fun (h : c = slash) => hslash (h ▸ hc)
  unfold components List.splitOn
  rw [List.splitOnP_append_cons_of_forall_mem hfree slash (by simp)]
  simp [hne]

/-- The components from a token on. -/
def remaining : Option (Name × Option (List UInt8)) → List Name
  | none => []
  | some (token, rest) => token :: rest.elim [] components

/-- `strtok` takes the first component off. -/
theorem components_strtok (l : List UInt8) : components l = remaining (strtok (some l)) := by
  cases htok : strtok (some l) with
  | none =>
      simp only [strtok] at htok
      split at htok
      · rename_i hnil
        rw [← components_dropWhile, hnil]
        rfl
      · cases htok
  | some r =>
      obtain ⟨token, rest⟩ := r
      obtain ⟨hne, hslash, hsplit⟩ := strtok_split htok
      rw [← components_dropWhile, hsplit]
      cases rest with
      | none =>
          rw [Option.elim_none, List.append_nil]
          exact components_token hne hslash
      | some r => exact components_cons hne hslash r

/-- What is left behind a token is shorter by the token at least. -/
theorem strtok_shorter {rest : Option (List UInt8)} (h : strtok (some l) = some (token, rest)) :
    0 < token.length ∧ token.length + (rest.getD []).length ≤ l.length := by
  obtain ⟨l', hl, -, -, hlen⟩ := strtok_some h
  cases hl
  exact ⟨List.length_pos_iff.mpr (strtok_split h).1, hlen⟩

theorem strtokAll_eq_components (hk : l.length < k) : strtokAll k (some l) = components l := by
  induction k generalizing l with
  | zero => omega
  | succ k ih =>
      rw [components_strtok]
      unfold strtokAll
      cases htok : strtok (some l) with
      | none => rfl
      | some r =>
          obtain ⟨token, rest⟩ := r
          obtain ⟨hpos, hlen⟩ := strtok_shorter htok
          cases rest with
          | none => cases k <;> rfl
          | some r => exact congrArg _ (ih (by rw [Option.getD_some] at hlen; omega))

theorem Path.tokens_eq_components (p : Path) : p.tokens = components p.bytes :=
  strtokAll_eq_components (Nat.lt_succ_self _)

theorem forall₂_getLast {α β : Type} {R : α → β → Prop} {as : List α} {bs : List β} {b : β}
    (h : List.Forall₂ R as bs) (hb : bs.getLast? = some b) :
    ∃ a, as.getLast? = some a ∧ R a b := by
  induction h with
  | nil => cases hb
  | @cons a b' as bs hab h ih =>
      cases h with
      | nil =>
          cases hb
          exact ⟨a, rfl, hab⟩
      | cons hab' h =>
          rw [List.getLast?_cons_cons] at hb ⊢
          exact ih hb

/-! ## The tokenizer -/

/-- Memory and the static variable of `strtok`, `0` for `NULL`. -/
structure Tokenizer where
  mem : Mem
  current : Nat

abbrev TokM := Exec Tokenizer Fault

namespace Tokenizer

/-- `strtok`, on strings of less than `n` characters. -/
def strtok (n str : Nat) (delim : List UInt8) : TokM Nat := do
  if str ≠ 0 then modify fun t => { t with current := str }
  let t ← get
  if t.current = 0 then pure 0
  else do
    let start ← ofOption (.ub "strtok") (scan t.mem (fun c => (strchr delim c).isSome) n t.current)
    if t.mem start = 0 then do
      modify fun t => { t with current := 0 }
      pure 0
    else do
      let fin ← ofOption (.ub "strtok") (scan t.mem (fun c => (strchr delim c).isNone) n start)
      if t.mem fin ≠ 0 then modify fun t => { mem := upd t.mem fin 0, current := fin + 1 }
      else modify fun t => { t with current := 0 }
      pure start

/-- The static variable stands at `cur`, in a string that ends at `fin`. -/
def At (t : Tokenizer) (fin : Nat) : Option (List UInt8) → Prop
  | none => t.current = 0
  | some l => t.current ≠ 0 ∧ StrAt t.mem t.current l ∧ t.current + l.length = fin

/-- A token where `strtok` returned it, in a string from `lo` to `fin`. -/
def TokenAt (lo fin : Nat) (m : Mem) (p : Nat) (token : Name) : Prop :=
  p ≠ 0 ∧ lo ≤ p ∧ p + token.length ≤ fin ∧ StrAt m p token

/-- What a call leaves that returns `p`: the token is there, and nothing in
front of its end has changed. -/
def Next (t : Tokenizer) (fin p : Nat) (t' : Tokenizer) :
    Option (Name × Option (List UInt8)) → Prop
  | none => p = 0 ∧ t'.current = 0 ∧ t'.mem = t.mem
  | some (token, rest) => TokenAt t.current fin t'.mem p token ∧ t'.At fin rest ∧
      (rest.isSome → p + token.length < t'.current) ∧
      ∀ a < p + token.length, t'.mem a = t.mem a

variable {n fin : Nat} {t : Tokenizer}

/-- A string given to `strtok` replaces what the static variable held. -/
theorem strtok_start (delim : List UInt8) (hstr : str ≠ 0) :
    strtok n str delim t = strtok n 0 delim { t with current := str } := by
  unfold strtok
  rw [if_pos hstr, if_neg (fun h => h rfl)]
  rfl

/-- One call on a string that is left: the list function says which token it
returns. -/
theorem strtok_some_post (h : t.At fin (some l)) (hn : l.length < n) :
    Post (strtok n 0 [slash]) t (fun p t' => Next t fin p t' (Pke.strtok (some l)))
      fun _ => False := by
  obtain ⟨hcur, hstr, hfin⟩ := h
  have hstart := scan_run (fun c => (strchr [slash] c).isSome) (· == slash) hstr
    (fun c hc => strchr_slash hc) hn
  have hskip := List.takeWhile_append_dropWhile (p := (· == slash)) (l := l)
  have hat : StrAt t.mem (t.current + (l.takeWhile (· == slash)).length)
      (l.dropWhile (· == slash)) := StrAt.append (by rwa [hskip])
  have hlen := congrArg List.length hskip
  rw [List.length_append] at hlen
  unfold strtok Pke.strtok
  dsimp only
  rw [if_neg (fun h => h rfl)]
  refine .bindGet ?_
  rw [if_neg hcur, hstart]
  -- `start` is where the leading slashes end
  generalize l.dropWhile (· == slash) = st at *
  generalize (l.takeWhile (· == slash)).length = k at *
  generalize hs : t.current + k = start at *
  refine .step (a := start) rfl ?_
  by_cases hnil : st = []
  · rw [if_pos (hat.eq_nil_iff.mpr hnil), if_pos hnil]
    exact .bindModify (.pure ⟨rfl, rfl, rfl⟩)
  · rw [if_neg (mt hat.eq_nil_iff.mp hnil), if_neg hnil]
    have hst : st.length < n := by omega
    have hend := scan_run (fun c => (strchr [slash] c).isNone) (· != slash) hat
      (fun c hc => by rw [← Option.not_isSome, strchr_slash hc]; rfl) hst
    have htoken := List.takeWhile_append_dropWhile (p := (· != slash)) (l := st)
    have hsplit := congrArg List.length htoken
    rw [List.length_append] at hsplit
    rw [← htoken] at hat
    rw [hend]
    generalize st.takeWhile (· != slash) = token at *
    generalize st.dropWhile (· != slash) = rest at *
    refine .step (a := start + token.length) rfl ?_
    have hrest := hat.append
    cases rest with
    | nil =>
        -- the token ends the string
        have hzero : ¬t.mem (start + token.length) ≠ 0 := not_not_intro hrest
        rw [List.append_nil] at hat
        rw [if_neg hzero, if_pos rfl]
        exact .bindModify (.pure ⟨⟨by omega, by omega, by omega, hat⟩, rfl,
          fun h => (by cases h), fun _ _ => rfl⟩)
    | cons c rest =>
        obtain ⟨hc, hcat, hrest⟩ := hrest
        simp only [List.length_cons] at hsplit
        rw [if_pos (hcat ▸ hc), if_neg (List.cons_ne_nil _ _)]
        refine .bindModify (.pure ⟨⟨by omega, by omega, by omega, hat.cut⟩,
          ⟨Nat.succ_ne_zero _, ?_, ?_⟩, fun _ => Nat.lt_succ_self _,
          fun a ha => upd_ne (by omega)⟩)
        · exact hrest.congr fun k _ => upd_ne (by omega)
        · simp only [List.tail_cons]
          omega

theorem strtok_next (cur : Option (List UInt8)) (h : t.At fin cur)
    (hn : ∀ l, cur = some l → l.length < n) :
    ∃ p t', strtok n 0 [slash] t = .ok (p, t') ∧ Next t fin p t' (Pke.strtok cur) := by
  have hpost : Post (strtok n 0 [slash]) t (fun p t' => Next t fin p t' (Pke.strtok cur))
      fun _ => False := by
    cases cur with
    | some l => exact strtok_some_post h (hn l rfl)
    | none =>
        have hnull : t.current = 0 := h
        unfold strtok
        rw [if_neg (fun h => h rfl)]
        refine .bindGet ?_
        rw [if_pos hnull]
        exact .pure ⟨rfl, hnull, rfl⟩
  cases hrun : strtok n 0 [slash] t with
  | error e => exact (hpost.of_error hrun).elim
  | ok r => exact ⟨r.1, r.2, rfl, hpost.of_ok hrun⟩

/-! ## Runs of calls -/

/-- The pointers that `strtok(str, delim)`, `strtok(NULL, delim)`, ... return
before the first `NULL`, which has to come within `k` calls. -/
def strtokAll (n : Nat) (delim : List UInt8) : (k str : Nat) → TokM (List Nat)
  | 0, _ => fault (.ub "fuel")
  | k + 1, str => do
      let token ← strtok n str delim
      if token = 0 then pure []
      else do
        let rest ← strtokAll n delim k 0
        pure (token :: rest)

/-- The tokens are still in memory when the last call has returned. -/
theorem strtokAll_run (lo : Nat) (cur : Option (List UInt8)) (h : t.At fin cur)
    (hlo : cur.isSome → lo ≤ t.current) (hn : ∀ l, cur = some l → l.length < n)
    (hk : (cur.getD []).length < k) :
    ∃ ps t', strtokAll n [slash] k 0 t = .ok (ps, t') ∧ t'.current = 0 ∧
      List.Forall₂ (TokenAt lo fin t'.mem) ps (Pke.strtokAll k cur) ∧
      ∀ a, (cur.isSome → a < t.current) → t'.mem a = t.mem a := by
  induction k generalizing t cur with
  | zero => omega
  | succ k ih =>
      -- one call, and then the calls on what it leaves
      obtain ⟨p, t1, hrun, hnext⟩ := strtok_next cur h hn
      unfold strtokAll Pke.strtokAll
      rw [bind_of_ok hrun]
      cases htok : Pke.strtok cur with
      | none =>
          rw [htok] at hnext
          obtain ⟨rfl, hcur, hmem⟩ := hnext
          exact ⟨[], t1, rfl, hcur, .nil, fun a _ => congrFun hmem a⟩
      | some r =>
          obtain ⟨token, rest⟩ := r
          rw [htok] at hnext
          obtain ⟨⟨hp, hle, hend, hat⟩, hrest, hafter, hsame⟩ := hnext
          obtain ⟨l, rfl, -⟩ := strtok_some htok
          obtain ⟨hne, hlen⟩ := strtok_shorter htok
          have hlo := hlo rfl
          have hl := hn l rfl
          simp only [Option.getD_some] at hk
          obtain ⟨ps, t2, hall, hnull, htokens, hkeep⟩ := ih rest hrest
            (fun h => by have := hafter h; omega)
            (fun l' hl' => by rw [hl', Option.getD_some] at hlen; omega) (by omega)
          rw [if_neg hp, bind_of_ok hall]
          refine ⟨p :: ps, t2, rfl, hnull, .cons ⟨hp, by omega, hend, ?_⟩ htokens, fun a ha => ?_⟩
          · -- later calls write behind this token
            exact hat.congr fun j hj => hkeep _ fun h => by have := hafter h; omega
          · have ha := ha rfl
            rw [hkeep a fun h => by have := hafter h; omega, hsame a (by omega)]

/-! ## `get_base_name` -/

/-- `strcpy` of a string of less than `n` characters. -/
def strcpyTo (n dst src : Nat) : TokM Unit := do
  let t ← get
  let m ← ofOption (.ub "path_copy") (strcpy n dst src t.mem)
  modify fun t => { t with mem := m }

/-- The loop of `get_base_name`, for at most `k` tokens. -/
def lastToken (n : Nat) (delim : List UInt8) : (k token last : Nat) → TokM Nat
  | 0, _, _ => fault (.ub "fuel")
  | k + 1, token, last =>
      if token = 0 then pure last
      else do
        let next ← strtok n 0 delim
        lastToken n delim k next token

/-- `get_base_name`, with its local `path_copy` at `copy`. Without a token it
copies from `NULL`. -/
def getBaseName (path baseName copy : Nat) : TokM Unit := do
  strcpyTo maxPathLen copy path
  let token ← strtok maxPathLen copy [slash]
  let last ← lastToken maxPathLen [slash] maxPathLen token 0
  if last = 0 then fault (.ub "get_base_name: no component")
  else strcpyTo maxPathLen baseName last

theorem strcpyTo_run (n dst : Nat) {src : Nat} (h : StrAt t.mem src l) (hn : l.length < n)
    (hapart : src + l.length < dst ∨ dst + l.length < src) :
    ∃ m, strcpyTo n dst src t = .ok ((), { t with mem := m }) ∧ StrAt m dst l ∧
      ∀ a, a < dst ∨ dst + l.length < a → m a = t.mem a := by
  obtain ⟨m, hrun, hat, hsame⟩ := strcpy_run n dst h hn hapart
  refine ⟨m, ?_, hat, hsame⟩
  unfold strcpyTo
  rw [Exec.bind_get, hrun]
  rfl

/-- The loop returns the last token of the calls it makes. -/
theorem lastToken_run {delim : List UInt8} {l : Nat} {ps : List Nat} {t' : Tokenizer}
    (h : strtokAll n delim k str t = .ok (ps, t')) :
    (strtok n str delim >>= fun token => lastToken n delim k token l) t =
      .ok (ps.getLastD l, t') := by
  induction k generalizing t str l ps with
  | zero => cases h
  | succ k ih =>
      unfold strtokAll at h
      obtain ⟨token, t1, htok, h⟩ := Exec.bind_ok h
      rw [bind_of_ok htok]
      unfold lastToken
      split at h
      · rename_i hnull
        cases h
        rw [if_pos hnull]
        rfl
      · rename_i hne
        obtain ⟨rest, t2, hrest, h⟩ := Exec.bind_ok h
        cases h
        rw [if_neg hne, ih hrest, List.getLastD_cons]

/-- Splitting the string at `str`, whatever the static variable holds. -/
theorem strtokAll_path (hstr : str ≠ 0) (h : StrAt t.mem str l) (hn : l.length < n)
    (hk : l.length < k) : ∃ ps t', strtokAll n [slash] k str t = .ok (ps, t') ∧ t'.current = 0 ∧
      List.Forall₂ (TokenAt str (str + l.length) t'.mem) ps (components l) := by
  obtain ⟨k, rfl⟩ := Nat.exists_eq_succ_of_ne_zero (Nat.ne_of_gt (Nat.zero_lt_of_lt hk))
  obtain ⟨ps, t', hrun, hnull, htokens, -⟩ := strtokAll_run (n := n) (k := k + 1)
    (t := { t with current := str }) str (some l) ⟨hstr, h, rfl⟩ (fun _ => le_rfl)
    (fun l' hl' => Option.some.inj hl' ▸ hn) hk
  rw [strtokAll_eq_components hk] at htokens
  refine ⟨ps, t', ?_, hnull, htokens⟩
  unfold strtokAll at hrun ⊢
  obtain ⟨token, t1, htok, hrest⟩ := Exec.bind_ok hrun
  rw [← strtok_start [slash] hstr] at htok
  rwa [bind_of_ok htok]

theorem getBaseName_run {path baseName copy : Nat} {name : Name} (h : StrAt t.mem path l)
    (hlen : l.length < maxPathLen) (hcopy : copy ≠ 0)
    (hpath : path + l.length < copy ∨ copy + maxPathLen ≤ path)
    (hbase : baseName + maxPathLen ≤ copy ∨ copy + maxPathLen ≤ baseName)
    (hname : (components l).getLast? = some name) :
    ∃ t', getBaseName path baseName copy t = .ok ((), t') ∧ StrAt t'.mem baseName name := by
  obtain ⟨m, hcpy, hat, -⟩ := strcpyTo_run maxPathLen copy h hlen (by omega)
  obtain ⟨ps, t1, hall, -, htokens⟩ := strtokAll_path (n := maxPathLen) (k := maxPathLen)
    (t := { t with mem := m }) hcopy hat hlen hlen
  obtain ⟨p, hlast, hp, hlo, hhi, hat'⟩ := forall₂_getLast htokens hname
  have hnext := lastToken_run (l := 0) hall
  rw [List.getLastD_eq_getLast?, hlast, Option.getD_some] at hnext
  obtain ⟨m', hcpy', hat'', -⟩ := strcpyTo_run maxPathLen baseName hat' (by omega) (by omega)
  refine ⟨{ t1 with mem := m' }, ?_, hat''⟩
  unfold getBaseName
  rw [bind_of_ok hcpy, ← Exec.bind_assoc, bind_of_ok hnext, if_neg hp]
  exact hcpy'

end Tokenizer

/-! ## `lookup_final_dentry` -/

/-- The kernel with the tokenizer beside it. -/
abbrev WalkM := Exec (Tokenizer × State) Fault

namespace WalkM

section

variable (host : VinodeOps)

/-- The loop of `lookup_final_dentry`, for at most `k` tokens. -/
def lookupTokens (n : Nat) : (k token this parent : Nat) → WalkM LookupResult
  | 0, _, _, _ => fault (.ub "fuel")
  | k + 1, token, this, parent =>
      if token = 0 then pure ⟨some this, parent, []⟩
      else do
        let w ← get
        let name := cstr w.1.mem token n
        match ← onSnd (lookupToken host this name) with
        | none => pure ⟨none, this, name⟩
        | some next => do
            let token ← onFst (Tokenizer.strtok n 0 [slash])
            lookupTokens n k token next this

/-- `lookup_final_dentry`, with its local `path_copy` at `copy`. -/
def lookupFinalDentry (path copy : Nat) : WalkM LookupResult := do
  onFst (Tokenizer.strcpyTo maxPathLen copy path)
  let token ← onFst (Tokenizer.strtok maxPathLen copy [slash])
  let w ← get
  lookupTokens host maxPathLen maxPathLen token w.2.vfsRootDentry w.2.vfsRootDentry

end

/-- The token `o` that a call has returned fits the bounds of the loop. -/
def Fits (n k : Nat) (o : Option (Name × Option (List UInt8))) : Prop :=
  0 < k ∧ ∀ token rest, o = some (token, rest) →
    token.length < n ∧ (rest.getD []).length < n ∧ (rest.getD []).length + 1 < k

theorem fits_strtok {cur : Option (List UInt8)} (hk : 0 < k) (hn : (cur.getD []).length < n)
    (hcur : (cur.getD []).length < k) : Fits n k (strtok cur) := by
  refine ⟨hk, fun token rest htok => ?_⟩
  obtain ⟨l, rfl, -⟩ := strtok_some htok
  obtain ⟨hpos, hlen⟩ := strtok_shorter htok
  rw [Option.getD_some] at hn hcur
  omega

/-- What a computation does to the kernel. -/
def kern {α : Type} (r : Except Fault (α × (Tokenizer × State))) : Except Fault (α × State) :=
  r.map fun r => (r.1, r.2.2)

theorem lookupTokens_refines {host : VinodeOps} {fin p : Nat} {t0 t : Tokenizer}
    {o : Option (Name × Option (List UInt8))} {this parent : Nat} {s : State}
    (h : t0.Next fin p t o) (hfits : Fits n k o) :
    kern (lookupTokens host n k p this parent (t, s)) =
      Pke.lookupTokens host (remaining o) this parent s := by
  induction k generalizing t0 t p o this parent s with
  | zero => exact absurd hfits.1 (Nat.lt_irrefl 0)
  | succ k ih =>
      cases o with
      | none =>
          obtain ⟨rfl, -, -⟩ := h
          rfl
      | some r =>
          obtain ⟨token, rest⟩ := r
          obtain ⟨htoken, hrest, hk⟩ := hfits.2 token rest rfl
          obtain ⟨⟨hp, -, -, hat⟩, hnext, -, -⟩ := h
          unfold lookupTokens remaining Pke.lookupTokens
          rw [if_neg hp, Exec.bind_get]
          dsimp only
          rw [hat.cstr_eq htoken]
          cases hrun : lookupToken host this token s with
          | error e =>
              rw [bind_of_error hrun, bind_of_error (Exec.onSnd_error t hrun)]
              rfl
          | ok r =>
              obtain ⟨found, s1⟩ := r
              rw [bind_of_ok hrun, bind_of_ok (Exec.onSnd_ok t hrun)]
              cases found with
              | none => rfl
              | some next =>
                  obtain ⟨p', t', htok, hnext'⟩ := Tokenizer.strtok_next rest hnext
                    (fun l hl => by rwa [hl] at hrest)
                  refine (congrArg kern (bind_of_ok (Exec.onFst_ok s1 htok))).trans ?_
                  rw [ih hnext' (fits_strtok (by omega) hrest (by omega))]
                  cases rest with
                  | none => rfl
                  | some l =>
                      exact congrArg (Pke.lookupTokens host · next this s1)
                        (components_strtok l).symm

/-- `lookup_final_dentry` walks the components of the path, whatever the
tokenizer was at before. -/
theorem lookupFinalDentry_refines (host : VinodeOps) (p : Path) {t : Tokenizer} {s : State}
    {path copy : Nat} (hlen : p.bytes.length < maxPathLen) (h : StrAt t.mem path p.bytes)
    (hcopy : copy ≠ 0) (hpath : path + p.bytes.length < copy ∨ copy + maxPathLen ≤ path) :
    kern (lookupFinalDentry host path copy (t, s)) = Pke.lookupFinalDentry host p s := by
  obtain ⟨m, hcpy, hat, -⟩ := Tokenizer.strcpyTo_run maxPathLen copy h hlen (by omega)
  obtain ⟨token, t1, htok, hnext⟩ := Tokenizer.strtok_next (n := maxPathLen)
    (t := { mem := m, current := copy }) (some p.bytes) ⟨hcopy, hat, rfl⟩
    (fun l hl => Option.some.inj hl ▸ hlen)
  rw [← Tokenizer.strtok_start (t := { t with mem := m }) [slash] hcopy] at htok
  unfold lookupFinalDentry Pke.lookupFinalDentry copyPath
  rw [bind_of_ok (Exec.onFst_ok s hcpy), bind_of_ok (Exec.onFst_ok s htok), Exec.bind_get, if_pos hlen,
    lookupTokens_refines hnext (fits_strtok (by decide) hlen hlen), ← components_strtok,
    ← p.tokens_eq_components]
  rfl

end WalkM

/-- Splitting a path gives its components: the calls of `strtok` on a copy of it,
the walk of `lookup_final_dentry`, and the name `get_base_name` copies. -/
theorem path_splits (host : VinodeOps) (p : Path) (hlen : p.bytes.length < maxPathLen)
    (t : Tokenizer) :
    (∀ copy n k, copy ≠ 0 → StrAt t.mem copy p.bytes → p.bytes.length < n → p.bytes.length < k →
      ∃ ps t', Tokenizer.strtokAll n [slash] k copy t = .ok (ps, t') ∧ t'.current = 0 ∧
        List.Forall₂ (Tokenizer.TokenAt copy (copy + p.bytes.length) t'.mem) ps
          (components p.bytes)) ∧
    ∀ path copy, copy ≠ 0 → StrAt t.mem path p.bytes →
      path + p.bytes.length < copy ∨ copy + maxPathLen ≤ path →
      (∀ s, WalkM.kern (WalkM.lookupFinalDentry host path copy (t, s)) =
        lookupTokens host (components p.bytes) s.vfsRootDentry s.vfsRootDentry s) ∧
      ∀ baseName name, baseName + maxPathLen ≤ copy ∨ copy + maxPathLen ≤ baseName →
        (components p.bytes).getLast? = some name →
        ∃ t', Tokenizer.getBaseName path baseName copy t = .ok ((), t') ∧
          StrAt t'.mem baseName name := by
  refine ⟨fun copy n k hcopy h hn hk => Tokenizer.strtokAll_path hcopy h hn hk, ?_⟩
  intro path copy hcopy h hpath
  refine ⟨fun s => ?_, fun baseName name hbase hname =>
    Tokenizer.getBaseName_run h hlen hcopy hpath hbase hname⟩
  rw [WalkM.lookupFinalDentry_refines host p hlen h hcopy hpath]
  unfold lookupFinalDentry copyPath
  rw [if_pos hlen, ← p.tokens_eq_components]
  rfl

/-- `//a/b/`, with a static variable left in the middle of nowhere. -/
theorem path_splits_two : ∃ ps t', Tokenizer.strtokAll 16 [slash] 16 256
      { mem := memcpy (fun _ => 255) 256 7 (strBytes [47, 47, 97, 47, 98, 47]), current := 77 } =
        .ok (ps, t') ∧ t'.current = 0 ∧
    List.Forall₂ (Tokenizer.TokenAt 256 262 t'.mem) ps [[97], [98]] :=
  (path_splits rfsIOps ⟨[47, 47, 97, 47, 98, 47], by decide⟩ (by decide) _).1 256 16 16 (by decide)
    ⟨by decide, rfl, by decide, rfl, by decide, rfl, by decide, rfl, by decide, rfl, by decide, rfl,
      rfl⟩ (by decide) (by decide)

end Pke
