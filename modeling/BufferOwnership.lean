import BufferOwnership.Proofs.AliasViews
import BufferOwnership.Proofs.Displacement
import BufferOwnership.Proofs.EmissionOrder
import BufferOwnership.Proofs.Handover
import BufferOwnership.Proofs.MissingRecords
import BufferOwnership.Proofs.PrintedRoutines
import BufferOwnership.Proofs.ProgramRuns
import BufferOwnership.Proofs.Replacement
import BufferOwnership.Proofs.Replanning
import BufferOwnership.Proofs.Retirement
import BufferOwnership.Proofs.RoundTrip
import BufferOwnership.Proofs.ShapeKept
import BufferOwnership.Proofs.Shares
import BufferOwnership.Proofs.Standstill
import BufferOwnership.Proofs.StraightLine
