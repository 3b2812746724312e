import Dag.Logger.Formatter
import Mathlib.Data.List.GetD
import Mathlib.Data.List.TakeWhile

/-!
# How a host is split

`Address::Lookup` takes a text that names a host and perhaps a service, splits it, and hands both
parts to `getaddrinfo`. A pointer into the text is its offset; at the end of the text is a null
character.

## Main definitions

* `memchr`, `cString`: searching the text, and reading it up to a null character
* `Address.lookup`: what `getaddrinfo` is called with
* `HostForm`: the forms of a host

## Main results

* `Address.lookup_name`, `Address.lookup_service`, `Address.lookup_bracketed`,
  `Address.lookup_literal`: how each form is split
* `Address.lookup_eq_iff`: the forms that are split as they are meant
-/

namespace Dag

/-! ## Texts with an end -/

/-- `memchr(host.c_str() + i, c, n)` -/
def memchr (host : Text) (i : ℕ) (c : Char) (n : ℕ) : Option ℕ :=
  (((host.drop i).take n).idxOf? c).map (i + ·)

/-- What a function reads that is given a pointer to characters. -/
def cString (t : Text) : Text := t.takeWhile (· ≠ '\x00')

section Search

variable {host pre post : Text} {i n : ℕ} {c : Char}

theorem idxOf?_append_cons (hc : c ∉ pre) : (pre ++ c :: post).idxOf? c = some pre.length := by
  induction pre with
  | nil => simp [List.idxOf?_cons]
  | cons d pre ih =>
    have hd : d ≠ c := by
      rintro rfl
      exact hc List.mem_cons_self
    rw [List.cons_append, List.idxOf?_cons, if_neg (by simpa using hd),
      ih fun h => hc (List.mem_cons_of_mem d h)]
    rfl

/-- The first one is found. -/
theorem memchr_eq_some (h : (host.drop i).take n = pre ++ c :: post) (hc : c ∉ pre) :
    memchr host i c n = some (i + pre.length) := by
  rw [memchr, h, idxOf?_append_cons hc]
  rfl

theorem memchr_eq_none_iff : memchr host i c n = none ↔ c ∉ (host.drop i).take n := by
  rw [memchr, Option.map_eq_none_iff, List.idxOf?_eq_none_iff]

theorem cString_of_notMem {t : Text} (h : '\x00' ∉ t) : cString t = t := by
  rw [cString, List.takeWhile_eq_self_iff]
  intro c hc
  have hne : c ≠ '\x00' := by
    rintro rfl
    exact h hc
  exact decide_eq_true hne

end Search

/-! ## Splitting -/

namespace Address

/-- The first part of `Lookup`: `node` and `service` of a text that starts with a bracket. -/
def inBrackets (host : Text) : Text × Option ℕ :=
  if host.head? = some '[' then
    match memchr host 1 ']' (host.length - 1) with
    | some endipv6 =>
      ((host.drop 1).take (endipv6 - 1),
        if host.getD (endipv6 + 1) '\x00' = ':' then some (endipv6 + 2) else none)
    | none => ([], none)
  else ([], none)

/-- The second part: `node` and `service` of a text with a colon. With a second colon behind it,
`service` is left where it is. -/
def atColon (host : Text) : Text × Option ℕ :=
  match memchr host 0 ':' host.length with
  | some service =>
    if memchr host (service + 1) ':' (host.length - service - 1) = none then
      (host.take service, some (service + 1))
    else ([], some service)
  | none => ([], none)

/-- `Lookup(result, host, …)`, up to the call of `getaddrinfo`: its first two arguments. -/
def lookup (host : Text) : Text × Option Text :=
  let found := inBrackets host
  let found := if found.1.isEmpty then atColon host else found
  let node := if found.1.isEmpty then host else found.1
  (cString node, found.2.map fun service => cString (host.drop service))

/-! ## The forms of a host -/

/-- The name of a host: not empty, and without colons and brackets. -/
structure NodeName where
  text : Text
  ne_nil : text ≠ []
  no_colon : ':' ∉ text
  no_open : '[' ∉ text
  no_close : ']' ∉ text
  no_null : '\x00' ∉ text

/-- The name of a service. -/
structure ServiceName where
  text : Text
  no_colon : ':' ∉ text
  no_null : '\x00' ∉ text

/-- The literal of an IPv6 address has two colons and more. -/
structure Literal where
  text : Text
  colons : 2 ≤ text.count ':'
  no_open : '[' ∉ text
  no_close : ']' ∉ text
  no_null : '\x00' ∉ text

/-- **The forms of a host.** -/
inductive HostForm
  | name (n : NodeName)
  | service (n : NodeName) (s : ServiceName)
  | bracketed (v : Literal)
  | bracketedService (v : Literal) (s : ServiceName)
  | literal (v : Literal)

namespace HostForm

/-- The text of each. -/
def text : HostForm → Text
  | name n => n.text
  | service n s => n.text ++ ':' :: s.text
  | bracketed v => '[' :: (v.text ++ [']'])
  | bracketedService v s => '[' :: (v.text ++ ']' :: ':' :: s.text)
  | literal v => v.text

/-- The node and the service that each stands for. -/
def meaning : HostForm → Text × Option Text
  | name n => (n.text, none)
  | service n s => (n.text, some s.text)
  | bracketed v => (v.text, none)
  | bracketedService v s => (v.text, some s.text)
  | literal v => (v.text, none)

end HostForm

/-! ## Without brackets -/

section Colon

variable {host : Text}

theorem inBrackets_of_head (h : host.head? ≠ some '[') : inBrackets host = ([], none) := if_neg h

theorem lookup_of_head (h : host.head? ≠ some '[') :
    lookup host = (cString (if (atColon host).1.isEmpty then host else (atColon host).1),
      (atColon host).2.map fun service => cString (host.drop service)) := by
  rw [lookup, inBrackets_of_head h]
  rfl

theorem head?_ne_of_notMem {c : Char} (h : c ∉ host) : host.head? ≠ some c := by
  intro hhead
  exact h (List.mem_of_head? hhead)

/-- No colon: there is no service. -/
theorem lookup_name (n : NodeName) : lookup n.text = (n.text, none) := by
  have hcolon : atColon n.text = ([], none) := by
    rw [atColon, memchr_eq_none_iff.mpr]
    rw [List.drop_zero, List.take_length]
    exact n.no_colon
  rw [lookup_of_head (head?_ne_of_notMem n.no_open), hcolon]
  exact Prod.ext (cString_of_notMem n.no_null) rfl

/-- The first colon, and whether there is another one behind it. -/
theorem atColon_eq {pre post : Text} (hpre : ':' ∉ pre) :
    atColon (pre ++ ':' :: post) =
      if ':' ∈ post then ([], some pre.length) else (pre, some (pre.length + 1)) := by
  have hfirst : memchr (pre ++ ':' :: post) 0 ':' (pre ++ ':' :: post).length =
      some pre.length := by
    have hall : ((pre ++ ':' :: post).drop 0).take (pre ++ ':' :: post).length =
        pre ++ ':' :: post := by
      rw [List.drop_zero, List.take_length]
    rw [memchr_eq_some hall hpre, Nat.zero_add]
  have hrest : (((pre ++ ':' :: post).drop (pre.length + 1)).take
      ((pre ++ ':' :: post).length - pre.length - 1)) = post := by
    rw [List.drop_append, List.drop_eq_nil_of_le (Nat.le_succ _), Nat.add_sub_cancel_left]
    simp
  rw [atColon, hfirst]
  simp only [memchr_eq_none_iff, hrest]
  by_cases hpost : ':' ∈ post
  · rw [if_pos hpost, if_neg (not_not.mpr hpost)]
  · rw [if_neg hpost, if_pos hpost, List.take_left]

/-- One colon: the service is behind it. -/
theorem lookup_service (n : NodeName) (s : ServiceName) :
    lookup (n.text ++ ':' :: s.text) = (n.text, some s.text) := by
  have hhead : (n.text ++ ':' :: s.text).head? ≠ some '[' := by
    obtain ⟨c, rest, hn⟩ := List.exists_cons_of_ne_nil n.ne_nil
    have hfirst := head?_ne_of_notMem n.no_open
    rw [hn] at hfirst ⊢
    exact hfirst
  have hnode : n.text.isEmpty = false := List.isEmpty_eq_false_iff.mpr n.ne_nil
  have hservice : (n.text ++ ':' :: s.text).drop (n.text.length + 1) = s.text := by
    simp
  rw [lookup_of_head hhead, atColon_eq n.no_colon, if_neg s.no_colon]
  simp only [hnode, Bool.false_eq_true, if_false, Option.map_some, hservice,
    cString_of_notMem n.no_null, cString_of_notMem s.no_null]

/-- Two colons and more, and no brackets: the service is the text from the first of them on. -/
theorem lookup_literal (v : Literal) : ∃ pre post, v.text = pre ++ ':' :: post ∧
    lookup v.text = (v.text, some (':' :: post)) := by
  have hmem : ':' ∈ v.text := by
    apply List.count_pos_iff.mp
    exact Nat.lt_of_lt_of_le Nat.zero_lt_two v.colons
  obtain ⟨pre, post, htext, hpre⟩ := List.eq_append_cons_of_mem hmem
  refine ⟨pre, post, htext, ?_⟩
  have hpost : ':' ∈ post := by
    have hcolons := v.colons
    rw [htext, List.count_append, List.count_cons_self, List.count_eq_zero_of_not_mem hpre]
      at hcolons
    exact List.count_pos_iff.mp (by omega)
  have hnull : '\x00' ∉ ':' :: post := by
    intro h
    apply v.no_null
    rw [htext]
    exact List.mem_append_right _ h
  have hcolon : atColon v.text = ([], some pre.length) := by
    rw [htext, atColon_eq hpre, if_pos hpost]
  have hservice : v.text.drop pre.length = ':' :: post := by
    rw [htext, List.drop_left]
  rw [lookup_of_head (head?_ne_of_notMem v.no_open), hcolon]
  simp only [List.isEmpty_nil, if_true, Option.map_some, hservice, cString_of_notMem hnull,
    cString_of_notMem v.no_null]

end Colon

/-! ## In brackets -/

section Brackets

variable {v rest : Text}

/-- What is in brackets, and whether there is a colon behind. -/
theorem inBrackets_eq (hv : ']' ∉ v) :
    inBrackets ('[' :: (v ++ ']' :: rest)) =
      (v, if rest.head? = some ':' then some (v.length + 3) else none) := by
  have hclose : memchr ('[' :: (v ++ ']' :: rest)) 1 ']'
      (('[' :: (v ++ ']' :: rest)).length - 1) = some (1 + v.length) := by
    have hall : (('[' :: (v ++ ']' :: rest)).drop 1).take
        (('[' :: (v ++ ']' :: rest)).length - 1) = v ++ ']' :: rest := by
      rw [List.drop_one, List.tail_cons, List.length_cons, Nat.add_sub_cancel, List.take_length]
    exact memchr_eq_some hall hv
  have hnode : (('[' :: (v ++ ']' :: rest)).drop 1).take (1 + v.length - 1) = v := by
    rw [List.drop_one, List.tail_cons, Nat.add_sub_cancel_left, List.take_left]
  have hnext : ('[' :: (v ++ ']' :: rest)).getD (1 + v.length + 1) '\x00' = ':' ↔
      rest.head? = some ':' := by
    rw [List.getD_cons_succ, List.getD_append_right _ _ _ _ (Nat.le_add_left ..),
      Nat.add_sub_cancel, List.getD_cons_succ]
    cases rest with
    | nil => simp
    | cons c rest => simp
  rw [inBrackets, if_pos (List.head?_cons ..), hclose]
  simp only [hnode, hnext]
  rw [Nat.add_comm 1 v.length]

theorem lookup_of_inBrackets {host node : Text} {service : Option ℕ}
    (h : inBrackets host = (node, service)) (hnode : node ≠ []) :
    lookup host = (cString node, service.map fun i => cString (host.drop i)) := by
  have hempty : node.isEmpty = false := List.isEmpty_eq_false_iff.mpr hnode
  rw [lookup, h]
  simp only [hempty, Bool.false_eq_true, if_false]

theorem Literal.ne_nil (v : Literal) : v.text ≠ [] := by
  intro hnil
  have hcolons := v.colons
  rw [hnil] at hcolons
  exact absurd hcolons (by decide)

/-- A literal in brackets. -/
theorem lookup_bracketed (v : Literal) : lookup ('[' :: (v.text ++ [']'])) = (v.text, none) := by
  rw [lookup_of_inBrackets (inBrackets_eq v.no_close) v.ne_nil, cString_of_notMem v.no_null]
  rfl

/-- A literal in brackets, and a service. -/
theorem lookup_bracketedService (v : Literal) (s : ServiceName) :
    lookup ('[' :: (v.text ++ ']' :: ':' :: s.text)) = (v.text, some s.text) := by
  have hservice : ('[' :: (v.text ++ ']' :: ':' :: s.text)).drop (v.text.length + 3) = s.text := by
    simp
  rw [lookup_of_inBrackets (inBrackets_eq v.no_close) v.ne_nil, cString_of_notMem v.no_null,
    List.head?_cons, if_pos rfl, Option.map_some, hservice, cString_of_notMem s.no_null]

end Brackets

/-! ## All forms -/

/-- **Splitting a host.** A host is split as it is meant just if it is in brackets or has no more
than one colon. -/
theorem lookup_eq_iff (f : HostForm) :
    lookup f.text = f.meaning ↔ f.text.head? = some '[' ∨ f.text.count ':' ≤ 1 := by
  cases f with
  | name n =>
    refine iff_of_true (lookup_name n) (Or.inr ?_)
    rw [HostForm.text, List.count_eq_zero_of_not_mem n.no_colon]
    exact Nat.zero_le 1
  | service n s =>
    refine iff_of_true (lookup_service n s) (Or.inr ?_)
    rw [HostForm.text, List.count_append, List.count_cons_self,
      List.count_eq_zero_of_not_mem n.no_colon, List.count_eq_zero_of_not_mem s.no_colon]
  | bracketed v => exact iff_of_true (lookup_bracketed v) (Or.inl rfl)
  | bracketedService v s => exact iff_of_true (lookup_bracketedService v s) (Or.inl rfl)
  | literal v =>
    apply iff_of_false
    · intro h
      obtain ⟨pre, post, -, hlookup⟩ := lookup_literal v
      cases congrArg Prod.snd (hlookup.symm.trans h)
    · rintro (hhead | hcount)
      · exact head?_ne_of_notMem v.no_open hhead
      · exact Nat.not_lt.mpr hcount v.colons

/-- The literal `::1`. -/
def loopback : Literal where
  text := [':', ':', '1']
  colons := by decide
  no_open := by decide
  no_close := by decide
  no_null := by decide

/-- It is handed over as the service, too. -/
theorem lookup_loopback :
    lookup (HostForm.literal loopback).text = ([':', ':', '1'], some [':', ':', '1']) ∧
    lookup (HostForm.literal loopback).text ≠ (HostForm.literal loopback).meaning := by
  decide

end Address

end Dag
