import PegGrammar.Proofs.Offsets.Escapes
import PegGrammar.Proofs.Recognition.CodeBlock

namespace PegGrammar.Offsets

open Checked

variable (source : Text)

def nameChar (plain : Char → Bool) (pos : Nat) : Checked (Char × Nat) := do
  let c ← found (charAt? source pos)
  if plain c then return (c, pos + c.utf8Size)
  else if c = '\\' then hexEscape source 'u' 4 (pos + 1)
  else found none

def nameRound (name : Text) (pos : Nat) : Except Fault (Round Text (Text × Nat)) := do
  match ← (nameChar source isNamePart pos).run with
  | some (c, next) => return .again (name ++ [c]) next
  | none => return .done (name, pos)

def name (pos : Nat) : Checked (String × Nat) := do
  let (c, next) ← nameChar source isNameStart pos
  let (name, stop) ← (loop source (nameRound source) [c] next : Except Fault (Text × Nat))
  return (String.ofList name, stop)

/-- Counts open braces up to the one that closes none of them. -/
def codeRound (depth pos : Nat) : Except Fault (Round Nat (Option Nat)) :=
  match charAt? source pos with
  | none => .ok (.done none)
  | some c =>
    if c = '{' then .ok (.again (depth + 1) (pos + c.utf8Size))
    else if c = '}' then
      match depth with
      | 0 => .ok (.done (some pos))
      | depth + 1 => .ok (.again depth (pos + c.utf8Size))
    else .ok (.again depth (pos + c.utf8Size))

/-- Code in braces, and the range between the braces. -/
def codeBlock (pos : Nat) : Checked (Text × ByteRange) := do
  let c ← found (charAt? source pos)
  if c = '{' then
    let stop ← OptionT.mk (loop source (codeRound source) 0 (pos + 1))
    let code ← slice source (pos + 1) stop
    return (code, ⟨pos + 1, stop⟩)
  else found none

variable {source} {s : Text} {pos : Nat}

theorem nameChar_agrees (plain : Char → Bool) :
    Agrees.Values source (nameChar source plain) (Name.nameChar plain) where
  there {s pos} h := by
    rw [nameChar, charAt?_eq h]
    fun_cases Name.nameChar plain s with
    | case1 => rfl
    | case2 c s hc =>
        rw [List.head?_cons, found_bind_some, if_pos hc, Option.map_some, Text.stopAt_one]
        rfl
    | case3 s hc =>
        have hnext : StandsAt source s (pos + 1) := h.tail
        rw [List.head?_cons, found_bind_some, if_neg hc, if_pos rfl, unicodeEscape_eq hnext,
          Option.map_map]
        refine congrArg (found <| Option.map · _) (funext fun l => ?_)
        rw [Function.comp_apply, Text.stopAt_cons]
        rfl
    | case4 c s hc hslash =>
        rw [List.head?_cons, found_bind_some, if_neg hc, if_neg hslash]
        rfl
  elsewhere h := by rw [nameChar, charAt?_eq_none h, found_bind_none]

theorem loop_nameRound (name : Text) (h : StandsAt source s pos) :
    loop source (nameRound source) name pos =
      .ok (name ++ (Name.nameParts s).value, s.stopAt pos (Name.nameParts s).length) := by
  refine loop_eq (fun name s pos =>
    (name ++ (Name.nameParts s).value, s.stopAt pos (Name.nameParts s).length))
    (fun name s pos h => ?_) name h
  rw [nameRound, (nameChar_agrees isNamePart).there h, run_found_bind, Name.nameParts_eq s]
  cases hu : Name.nameChar isNamePart s with
  | none =>
      refine .inl ?_
      dsimp only
      rw [List.append_nil]
      rfl
  | some u =>
      obtain ⟨hpos, hle⟩ := Name.advances_nameChar isNamePart s u.length
        (congrArg (Option.map Lexeme.length) hu)
      refine .inr ⟨name ++ [u.value], u.length, hpos, hle, rfl, ?_⟩
      simp only [Text.stopAt_add, List.append_assoc, List.singleton_append]

theorem name_agrees : Agrees.Values source (Offsets.name source) Name.name where
  there {s pos} h := by
    rw [name, (nameChar_agrees isNameStart).there h, Name.name]
    cases Name.nameChar isNameStart s with
    | none => rfl
    | some u =>
        rw [Option.map_some, found_bind_some]
        dsimp only
        rw [loop_nameRound [u.value] (h.stopAt u.length), Option.map_some, Option.map_some,
          Text.stopAt_add]
        rfl
  elsewhere h := by rw [name, (nameChar_agrees isNameStart).elsewhere h, found_bind_none]

theorem codeRound_eq (depth : Nat) (h : StandsAt source s pos) : codeRound source depth pos =
    .ok (match CodeBlock.codeChar depth s with
      | some u => .again u.value (s.stopAt pos u.length)
      | none => .done (if s.head? = some '}' then some pos else none)) := by
  rw [codeRound, charAt?_eq h]
  fun_cases CodeBlock.codeChar depth s with
  | case1 => rfl
  | case2 s => simp only [List.head?_cons, if_true, Text.stopAt_one]
  | case3 => rfl
  | case4 s depth => simp only [List.head?_cons, Text.stopAt_one]; rfl
  | case5 depth c s hopen hclose =>
      simp only [List.head?_cons, if_neg hopen, if_neg hclose, Text.stopAt_one]

theorem loop_codeRound (depth : Nat) (h : StandsAt source s pos) :
    loop source (codeRound source) depth pos =
      .ok ((CodeBlock.codeUpTo depth s).map (pos + Text.byteSize ·)) := by
  refine loop_eq (fun depth s pos =>
    (CodeBlock.codeUpTo depth s).map (pos + Text.byteSize ·)) (fun depth s pos h => ?_) depth h
  rw [codeRound_eq depth h, CodeBlock.codeUpTo_eq]
  cases hu : CodeBlock.codeChar depth s with
  | none =>
      refine .inl ?_
      by_cases hs : s.head? = some '}' <;> simp [hs]
  | some u =>
      obtain ⟨hpos, hle⟩ := CodeBlock.advances_codeChar depth s u.length
        (congrArg (Option.map Lexeme.length) hu)
      refine .inr ⟨u.value, u.length, hpos, hle, rfl, ?_⟩
      rw [Option.map_map]
      refine congrArg (Option.map · _) (funext fun code => ?_)
      rw [Function.comp_apply, Text.byteSize_append, Text.stopAt, Nat.add_assoc]

theorem codeBlock_agrees : Agrees source (codeBlock source) CodeBlock.codeBlock fun _ pos code =>
    (code, ⟨pos + 1, pos + 1 + Text.byteSize code⟩) where
  there {s pos} h := by
    rw [codeBlock, charAt?_eq h]
    fun_cases CodeBlock.codeBlock s with
    | case1 s =>
        have hbody : StandsAt source s (pos + 1) := h.tail
        rw [List.head?_cons, found_bind_some, if_pos rfl, loop_codeRound 0 hbody]
        cases hcode : CodeBlock.codeUpTo 0 s with
        | none => rfl
        | some code =>
            obtain ⟨-, r, rfl⟩ := CodeBlock.balancedAt_of_codeUpTo hcode
            change (found (some (pos + 1 + Text.byteSize code)) >>= _) = _
            rw [found_bind_some, slice_eq hbody]
            rfl
    | case2 c s hc =>
        rw [List.head?_cons, found_bind_some, if_neg hc]
        rfl
    | case3 => rfl
  elsewhere h := by rw [codeBlock, charAt?_eq_none h, found_bind_none]

end PegGrammar.Offsets
