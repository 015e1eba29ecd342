import BareboneKernel.Fdt.Accept
import BareboneKernel.Fdt.Navigate
import BareboneKernel.Fdt.Descend
import BareboneKernel.Fdt.Blob
import BareboneKernel.Fdt.Cursor
import BareboneKernel.Fdt.Diagnose
import BareboneKernel.Fdt.RoundTrip
import BareboneKernel.Kernel.Allocator
import BareboneKernel.Kernel.Boot
import BareboneKernel.Kernel.Confinement
import BareboneKernel.Kernel.Frames
import BareboneKernel.Kernel.BootAllocator
import BareboneKernel.Kernel.ImageFormat
import BareboneKernel.Kernel.Isolation
import BareboneKernel.Kernel.HeapPages
import BareboneKernel.Kernel.Trap
import BareboneKernel.Kernel.Startup
import BareboneKernel.Kernel.Timer
import BareboneKernel.Kernel.Session
import BareboneKernel.Kernel.Progress
import BareboneKernel.Kernel.Process
import BareboneKernel.Kernel.Probe
