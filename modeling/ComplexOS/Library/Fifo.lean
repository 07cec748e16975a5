import Mathlib.Data.List.Basic

/-! # First in, first out

The law every queue is held to: what has been put in is what has been taken out,
followed by what is still inside.
-/
namespace ComplexOS.Fifo
variable {α β : Type*} {sent received contents : List α} {a : α}

def Conserved (sent received contents : List α) : Prop := sent = received++contents

theorem conserved_nil : Conserved ([] : List α) [] [] := rfl

theorem Conserved.put (h : Conserved sent received contents) :
    Conserved (sent++[a]) received (contents++[a]) := by
  rw [Conserved,h,List.append_assoc]

theorem Conserved.take (h : Conserved sent received (a::contents)) :
    Conserved sent (received++[a]) contents := by
  rw [Conserved,h,List.append_assoc,List.singleton_append]

theorem Conserved.isPrefix (h : Conserved sent received contents) : received <+: sent :=
  ⟨contents,h.symm⟩

theorem Conserved.length (h : Conserved sent received contents) :
    sent.length = received.length+contents.length := by
  rw [h,List.length_append]

end ComplexOS.Fifo
