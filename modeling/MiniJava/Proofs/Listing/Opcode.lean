import MiniJava.Code.Opcode
import MiniJava.Proofs.Listing.Line

namespace MiniJava

open Line

namespace Opcode

-- The instruction of a word that is applied to an operand.
def ofWord? (word : String) (operand : List Char) : Option Opcode :=
  match word with
  | "push_int"       => some (.pushInt (intOf operand))
  | "load_arg"       => some (.loadArg (natOf operand))
  | "store_arg"      => some (.storeArg (natOf operand))
  | "load_local"     => some (.loadLocal (natOf operand))
  | "store_local"    => some (.storeLocal (natOf operand))
  | "load_field"     => some (.loadField ⟨natOf (operand.drop "field#".length)⟩)
  | "store_field"    => some (.storeField ⟨natOf (operand.drop "field#".length)⟩)
  | "load_elem.i4"   => some (.loadElement .int)
  | "load_elem.ref"  => some (.loadElement .reference)
  | "store_elem.i4"  => some (.storeElement .int)
  | "store_elem.ref" => some (.storeElement .reference)
  | "array_length"   => some .arrayLength
  | "new_array"      => some (.newArray ⟨natOf (operand.drop "type#".length)⟩)
  | "new_object"     => some (.newObject ⟨natOf (operand.drop "ctor#".length)⟩)
  | "call"           => some (.call ⟨natOf (operand.drop "method#".length)⟩)
  | "call_print_int" => some .callPrintInt
  | "call_assert"    => some .callAssert
  | "add"            => some .add
  | "sub"            => some .sub
  | "mul"            => some .mul
  | "div"            => some .div
  | "rem"            => some .rem
  | "clt"            => some .lessThan
  | "cgt"            => some .greaterThan
  | "ceq"            => some .equal
  | "and"            => some .and
  | "or"             => some .or
  | "pop"            => some .pop
  | "br"             => some (.branch ⟨natOf (operand.drop "L".length)⟩)
  | "brfalse"        => some (.branchIfFalse ⟨natOf (operand.drop "L".length)⟩)
  | "brtrue"         => some (.branchIfTrue ⟨natOf (operand.drop "L".length)⟩)
  | "ret"            => some .ret
  | _                => none

-- The instruction that a text stands for.
def ofText? (text : String) : Option Opcode :=
  let word := text.toList.takeWhile (· ≠ ' ')
  ofWord? (String.ofList word) (text.toList.drop (word.length + 1))

theorem ofText?_append (word : String) (hs : start.toList = word.toList ++ [' '])
    (hn : ' ' ∉ word.toList) (h : ofWord? word operand.toList = some o) :
    ofText? (start ++ operand) = some o := by
  have htext : (start ++ operand).toList = word.toList ++ ' ' :: operand.toList := by
    rw [String.toList_append, hs, List.append_assoc]
    rfl
  have hword : ∀ c ∈ word.toList, decide (c ≠ ' ') = true := fun c hc =>
    decide_eq_true fun (he : c = ' ') => hn (he ▸ hc)
  have htake : (word.toList ++ ' ' :: operand.toList).takeWhile (· ≠ ' ') = word.toList := by
    rw [List.takeWhile_append_of_pos hword]
    simp
  have hdrop : (word.toList ++ ' ' :: operand.toList).drop (word.toList.length + 1) =
      operand.toList := by
    simp
  simp only [ofText?, htext, htake, hdrop, String.ofList_toList, h]

theorem ofText?_number (word : String) (f : Nat → Opcode) (hs : start.toList = word.toList ++ [' '])
    (hn : ' ' ∉ word.toList) (hf : ∀ operand, ofWord? word operand = some (f (natOf operand)))
    (n : Nat) : ofText? (start ++ toString n) = some (f n) :=
  ofText?_append word hs hn (by rw [hf, natOf_toString])

-- Behind what tells the sort of a handle stands its number.
theorem ofText?_handle (word : String) (f : Nat → Opcode) (hs : start.toList = word.toList ++ [' '])
    (hn : ' ' ∉ word.toList) (hk : sort.toList.length = k)
    (hf : ∀ operand, ofWord? word operand = some (f (natOf (operand.drop k)))) (n : Nat) :
    ofText? (start ++ (sort ++ toString n)) = some (f n) := by
  refine ofText?_append word hs hn ?_
  rw [hf, String.toList_append, List.drop_left' hk, natOf_toString]

-- An instruction is read back from its text.
theorem ofText?_text (o : Opcode) : ofText? o.text = some o := by
  cases o with
  | pushInt value   =>
    have hv : some (pushInt (intOf (toString value).toList)) = some (pushInt value) :=
      congrArg (some <| pushInt ·) (intOf_toString value)
    exact ofText?_append "push_int" rfl (by decide) hv
  | loadArg k       => exact ofText?_number "load_arg" loadArg rfl (by decide) (fun _ => rfl) k
  | storeArg k      => exact ofText?_number "store_arg" storeArg rfl (by decide) (fun _ => rfl) k
  | loadLocal k     => exact ofText?_number "load_local" loadLocal rfl (by decide) (fun _ => rfl) k
  | storeLocal k    => exact ofText?_number "store_local" storeLocal rfl (by decide) (fun _ => rfl) k
  | loadField h     =>
    exact ofText?_handle "load_field" (loadField ⟨·⟩) rfl (by decide) rfl (fun _ => rfl) h.number
  | storeField h    =>
    exact ofText?_handle "store_field" (storeField ⟨·⟩) rfl (by decide) rfl (fun _ => rfl) h.number
  | newArray h      =>
    exact ofText?_handle "new_array" (newArray ⟨·⟩) rfl (by decide) rfl (fun _ => rfl) h.number
  | newObject h     =>
    exact ofText?_handle "new_object" (newObject ⟨·⟩) rfl (by decide) rfl (fun _ => rfl) h.number
  | call h          =>
    exact ofText?_handle "call" (call ⟨·⟩) rfl (by decide) rfl (fun _ => rfl) h.number
  | branch l        =>
    exact ofText?_handle "br" (branch ⟨·⟩) rfl (by decide) rfl (fun _ => rfl) l.number
  | branchIfFalse l =>
    exact ofText?_handle "brfalse" (branchIfFalse ⟨·⟩) rfl (by decide) rfl (fun _ => rfl) l.number
  | branchIfTrue l  =>
    exact ofText?_handle "brtrue" (branchIfTrue ⟨·⟩) rfl (by decide) rfl (fun _ => rfl) l.number
  | loadElement kind | storeElement kind => cases kind <;> decide +kernel
  | arrayLength | callPrintInt | callAssert | add | sub | mul | div | rem | lessThan | greaterThan
  | equal | and | or | pop | ret => decide +kernel

theorem text_injective : Function.Injective text := fun o o' h =>
  Option.some.inj ((ofText?_text o).symm.trans (h ▸ ofText?_text o'))

theorem newline_notMem_text (o : Opcode) : '\n' ∉ o.text.toList := by
  cases o with
  | loadElement kind | storeElement kind => cases kind <;> decide +kernel
  | _ =>
    simp [text, TypeHandle.text, MethodHandle.text, FieldHandle.text, ConstructorHandle.text,
      Label.text, newline_notMem_toDigits, newline_notMem_repr]

end Opcode

end MiniJava
